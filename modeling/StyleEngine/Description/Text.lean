import StyleEngine.Description.OfData
import StyleEngine.Json.Reader
import StyleEngine.Yaml.Reader

/-!
# Descriptions from text

Descriptions and keyframes are read from JSON or YAML. Reading a text looks at the whole text before
the shape; decoding, as a part of a larger JSON text would be, looks at the value first.
-/

namespace StyleEngine

/-- Why a JSON text does not decode. -/
inductive DecodeError where
  | malformed
  | shape (cause : StyleError)

variable {α : Type}

/-- Reads a text and then its data. -/
def readText (read? : String → Option Data) (ofData : Data → Except StyleError α) (s : String) :
    Except StyleError α :=
  match read? s with
  | none => .error .malformed
  | some value => ofData value

/-- Decodes the value at the start of a JSON text, then sees that nothing follows. -/
def decodeJson (ofData : Data → Except StyleError α) (s : String) : Except DecodeError α :=
  match Json.readFirst? s with
  | none => .error .malformed
  | some (value, ends) =>
    match ofData value with
    | .error e => .error (.shape e)
    | .ok a => if ends then .ok a else .error .malformed

def Description.ofJson : String → Except StyleError Description := readText Json.read? ofData
def Description.ofYaml : String → Except StyleError Description := readText Yaml.read? ofData
def Description.decode : String → Except DecodeError Description := decodeJson ofData

def Keyframes.ofJson : String → Except StyleError Keyframes := readText Json.read? ofData
def Keyframes.ofYaml : String → Except StyleError Keyframes := readText Yaml.read? ofData
def Keyframes.decode : String → Except DecodeError Keyframes := decodeJson ofData

/-- The value that a JSON text spells under a key. -/
def Value.ofJson (key : String) : String → Except StyleError Value :=
  readText Json.read? (ofData key)

end StyleEngine
