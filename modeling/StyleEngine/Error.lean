import StyleEngine.Data
import StyleEngine.Number.Shortest

/-!
# What can go wrong with a style

Each error is a cause; `StyleError.message` words it.
-/

namespace StyleEngine

/-- Why a text is not a color. -/
inductive ColorFault where
  | hexLength
  | hexDigit
  | notANumber (component : String)
  | channelRange (value : Float)
  | componentCount (function : String) (count : Nat)
  | unknownFunction (function : String)
  | unknownName
  deriving DecidableEq

def ColorFault.message : ColorFault → String
  | hexLength => "hex colors must have 3 or 6 digits"
  | hexDigit => "not a hex digit"
  | notANumber component => "'" ++ component ++ "' is not a number"
  | channelRange value => "channel " ++ Number.format value ++ " out of range (0-255)"
  | componentCount function count => function ++ "() does not take " ++ toString count ++ " components"
  | unknownFunction function => "unknown color function '" ++ function ++ "'"
  | unknownName => "unknown color name"

/-- What the data of a description should have been. -/
inductive Expectation where
  | description
  | offsets
  | selectors
  | boolean
  | text
  | natural
  | propertyValue
  deriving DecidableEq, Repr

def Expectation.message : Expectation → String
  | description => "a map"
  | offsets => "a map of offsets"
  | selectors => "a map of selectors"
  | boolean => "a boolean"
  | text => "a string"
  | natural => "a non-negative integer"
  | propertyValue => "a property value"

/-- The at-rules that hold declarations only. -/
inductive FlatRuleKind where
  | keyframes
  | fontFace
  deriving DecidableEq, Repr

def FlatRuleKind.message : FlatRuleKind → String
  | keyframes => "@keyframes"
  | fontFace => "@font-face"

inductive StyleError where
  /-- A text that is not a color. -/
  | invalidColor (value : String) (fault : ColorFault)
  /-- A typed value that refuses to be written. -/
  | invalidValue (tag reason : String)
  /-- A nested selector where only declarations are allowed. -/
  | unexpectedNesting (found : FlatRuleKind) (selector : String)
  /-- A description with more levels than `limit`. -/
  | nestingTooDeep (limit : Nat)
  /-- Data of the wrong shape under `key`. -/
  | invalidDescription (key : String) (expected : Expectation) (found : Data.Kind)
  /-- A text that is no JSON or YAML. -/
  | malformed
  deriving DecidableEq

def StyleError.message : StyleError → String
  | invalidColor value fault => "invalid color '" ++ value ++ "': " ++ fault.message
  | invalidValue tag reason => "invalid " ++ tag ++ " value: " ++ reason
  | unexpectedNesting found selector =>
    found.message ++ " does not support nested selectors (found '" ++ selector ++ "')"
  | nestingTooDeep limit => "style nesting exceeds the maximum depth of " ++ toString limit
  | invalidDescription key expected found =>
    "invalid style description at '" ++ key ++ "': expected " ++ expected.message ++ ", found " ++
      found.message
  | malformed => "failed to parse style description"

end StyleEngine
