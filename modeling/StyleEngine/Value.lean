import StyleEngine.Color
import StyleEngine.Error

/-!
# Property values

The right side of a declaration: plain values, lists of fallbacks, and typed values that write
themselves and may refuse to.
-/

namespace StyleEngine

/-- The tags of function values. -/
inductive FunctionKind where
  | plain
  | gradient
  deriving DecidableEq, Repr

def FunctionKind.tag : FunctionKind → String
  | plain => "function"
  | gradient => "gradient"

inductive Value where
  | null
  | boolean (b : Bool)
  | number (x : Float)
  | text (s : String)
  /-- A chain of fallbacks as a property value; space-separated inside another value. -/
  | list (items : List Value)
  | color (c : Color)
  /-- `name(parameter,...)`. -/
  | function (kind : FunctionKind) (name : String) (parameters : List Value)
  /-- A caller's own typed value, with what it writes. -/
  | custom (tag : String) (rendering : Except StyleError String)

namespace Value

def ofSingle (x : Float32) : Value := number x.toFloat
def ofInt (n : Int) : Value := number (Float.ofInt n)

def linearGradient (position : Value) (stops : List Value) : Value :=
  function .gradient "linear-gradient" (position :: stops)
def repeatingLinearGradient (position : Value) (stops : List Value) : Value :=
  function .gradient "repeating-linear-gradient" (position :: stops)

/-- Values that composition leaves out: null, false, the empty text and NaN. Zero is not one. -/
def isFalsy : Value → Bool
  | null => true
  | boolean b => !b
  | text s => s.isEmpty
  | number x => x.isNaN
  | _ => false

mutual

/-- The CSS text of a value. -/
def css : Value → Except StyleError String
  | null => .ok ""
  | boolean b => .ok (if b then "true" else "false")
  | number x => .ok (Number.format x)
  | text s => .ok s
  | list items => (cssAll items).map (" ".intercalate ·)
  | color c => .ok c.css
  | function _ name parameters => (cssAll parameters).map (Text.call name)
  | custom _ rendering => rendering

/-- The CSS texts of values, or the first error. -/
def cssAll : List Value → Except StyleError (List String)
  | [] => .ok []
  | v :: rest =>
    match css v with
    | .error e => .error e
    | .ok s => (cssAll rest).map (s :: ·)

end

/-- `name(parameter,...)` of values. -/
def cssFunction (name : String) (parameters : List Value) : Except StyleError String :=
  (cssAll parameters).map (Text.call name)

/-- The tag of a typed value. -/
def tag? : Value → Option String
  | color _ => some "color"
  | function kind _ _ => some kind.tag
  | custom tag _ => some tag
  | _ => none

/-- The values that are written one declaration each: the truthy elements of a list, and any other
value by itself. -/
def fallbacks : Value → List Value
  | list items => items.filter (!·.isFalsy)
  | v => [v]

/-- Typed values are the same when tag and text agree; a refusal to be written has no text. -/
def sameTyped (a b : Value) : Bool :=
  match a.tag?, b.tag? with
  | some s, some t => s == t && a.css.toOption == b.css.toOption
  | _, _ => false

mutual

/-- Sameness of values. NaN differs from itself, and the two zeros are the same. -/
def same : Value → Value → Bool
  | null, null => true
  | boolean a, boolean b => a == b
  | number a, number b => a == b
  | text a, text b => a == b
  | list a, list b => sameAll a b
  | a, b => sameTyped a b

def sameAll : List Value → List Value → Bool
  | [], [] => true
  | a :: as, b :: bs => same a b && sameAll as bs
  | _, _ => false

end

instance : BEq Value := ⟨same⟩

end Value

end StyleEngine
