import StyleEngine.Color
import StyleEngine.Error
import StyleEngine.Number.Decimal
import StyleEngine.Text.Blank

/-!
# Reading colors

A color text is `#` with three or six digits, one of the four color functions, or a keyword in any
case. Everything else is refused with its cause.
-/

namespace StyleEngine.Color

/-- A channel in base 16: digits, of which the first may give way to a plus sign if others follow. -/
def hexChannel? : List Char → Option UInt8
  | [] => none
  | ['+'] => none
  | '+' :: digits => (Number.readDigitsIn? 16 0 digits).map (·.toUInt8)
  | digits => (Number.readDigitsIn? 16 0 digits).map (·.toUInt8)

/-- Three digits, each standing for a doubled one, or three pairs. -/
def hexChannels? : List Char → Option (Option UInt8 × Option UInt8 × Option UInt8)
  | [r, g, b] => some ((hexChannel? [r]).map (· * 17), (hexChannel? [g]).map (· * 17),
      (hexChannel? [b]).map (· * 17))
  | [r, r', g, g', b, b'] => some (hexChannel? [r, r'], hexChannel? [g, g'], hexChannel? [b, b'])
  | _ => none

/-- Reads what follows the `#`. -/
def parseHex (hex : List Char) : Except ColorFault Color :=
  if hex.all (·.val < 0x80) then
    match hexChannels? hex with
    | some (some r, some g, some b) => .ok (ofRgb r g b)
    | some _ => .error .hexDigit
    | none => .error .hexLength
  else .error .hexLength

/-- The text without one percent sign at its end. -/
def dropPercent (cs : List Char) : List Char :=
  if cs.getLast? = some '%' then cs.dropLast else cs

/-- A number with an optional percent sign. -/
def parseNumber (part : String) : Except ColorFault Float :=
  match Number.ofText? (Text.trim (String.ofList (dropPercent part.toList))) with
  | some x => .ok x
  | none => .error (.notANumber part)

/-- A number from 0 to 255, rounded to a whole one. -/
def parseChannel (part : String) : Except ColorFault UInt8 := do
  let x ← parseNumber part
  if 0.0 ≤ x && x ≤ 255.0 then .ok (Number.roundHalfAway x).toUInt8 else .error (.channelRange x)

/-- The color functions, by lower-case name and arguments. -/
def applyFunction (name : String) (arguments : List String) : Except ColorFault Color :=
  match name.toLower, arguments with
  | "rgb", [r, g, b] => do
    return ofRgb (← parseChannel r) (← parseChannel g) (← parseChannel b)
  | "rgba", [r, g, b, a] => do
    return ofRgba (← parseChannel r) (← parseChannel g) (← parseChannel b) (← parseNumber a)
  | "hsl", [h, s, l] => do
    return ofHsl (← parseNumber h) (← parseNumber s) (← parseNumber l)
  | "hsla", [h, s, l, a] => do
    return ofHsla (← parseNumber h) (← parseNumber s) (← parseNumber l) (← parseNumber a)
  | lower, _ =>
    if ["rgb", "rgba", "hsl", "hsla"].contains lower then
      .error (.componentCount name arguments.length)
    else .error (.unknownFunction name)

/-- Name and arguments of a text with an opening bracket that ends in a closing one. -/
def splitCall? (cs : List Char) : Option (String × List String) :=
  if cs.getLast? = some ')' && cs.contains '(' then
    let name := cs.takeWhile (· != '(')
    let arguments := ((cs.dropWhile (· != '(')).drop 1).dropLast
    some (Text.trim (String.ofList name),
      (arguments.splitOn ',').map fun a => Text.trim (String.ofList a))
  else none

def parseKeyword (name : String) : Except ColorFault Color :=
  match keywords.find? fun k => k.toLower == name.toLower with
  | some k => .ok (.keyword k)
  | none => .error .unknownName

def parseTrimmed (text : String) : Except ColorFault Color :=
  match text.toList with
  | '#' :: hex => parseHex hex
  | cs =>
    match splitCall? cs with
    | some (name, arguments) => applyFunction name arguments
    | none => parseKeyword text

/-- Reads a color. Blanks around the text do not matter; the error carries the text without them. -/
def parse (text : String) : Except StyleError Color :=
  (parseTrimmed (Text.trim text)).mapError (.invalidColor (Text.trim text))

example : (parse " #f00 ").toOption.map css = some "rgb(255,0,0)" := by decide +kernel
example : (parse "hsl(480, 50%, 5)").toOption.map css = some "hsl(120,50%,5%)" := by decide +kernel

end StyleEngine.Color
