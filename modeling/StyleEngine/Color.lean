import StyleEngine.Number.Shortest

/-!
# Colors

Keyword colors, red-green-blue colors and hue-saturation-lightness colors, the last two with an
optional alpha.
-/

namespace StyleEngine

/-- A function in CSS notation: `name(argument,...)`. -/
def Text.call (name : String) (arguments : List String) : String :=
  name ++ "(" ++ ",".intercalate arguments ++ ")"

inductive Color where
  /-- Written as its name. -/
  | keyword (name : String)
  | rgb (red green blue : UInt8) (alpha : Option Float)
  /-- Hue in degrees, saturation and lightness in percent. -/
  | hsl (hue saturation lightness : Float) (alpha : Option Float)
  deriving BEq

namespace Color

/-- The sixteen basic colors and two more keywords. -/
def keywords : List String :=
  ["aqua", "black", "blue", "fuchsia", "gray", "green", "lime", "maroon", "navy", "olive", "purple",
    "red", "silver", "teal", "white", "yellow", "transparent", "currentColor"]

/-- Alpha lies between 0 and 1. -/
def clampAlpha (alpha : Float) : Float := Number.clamp alpha 1.0
/-- A percentage lies between 0 and 100. -/
def clampPercent (x : Float) : Float := Number.clamp x 100.0

def ofRgb (red green blue : UInt8) : Color := .rgb red green blue none
def ofRgba (red green blue : UInt8) (alpha : Float) : Color :=
  .rgb red green blue (some (clampAlpha alpha))
/-- The hue wraps around the circle. -/
def ofHsl (hue saturation lightness : Float) : Color :=
  .hsl (Number.wrap hue 360) (clampPercent saturation) (clampPercent lightness) none
def ofHsla (hue saturation lightness alpha : Float) : Color :=
  .hsl (Number.wrap hue 360) (clampPercent saturation) (clampPercent lightness)
    (some (clampAlpha alpha))

/-- The same color with another alpha. Keywords have none and stay as they are. -/
def fade (alpha : Float) : Color → Color
  | keyword name => keyword name
  | rgb red green blue _ => rgb red green blue (some (clampAlpha alpha))
  | hsl hue saturation lightness _ => hsl hue saturation lightness (some (clampAlpha alpha))

/-- A number to so many places. -/
def rounded (x : Float) (places : Nat) : String := Number.format (Number.roundPlaces x places)

/-- Angles and percentages have two places, alpha has five. -/
def css : Color → String
  | keyword name => name
  | rgb red green blue none => Text.call "rgb" [toString red, toString green, toString blue]
  | rgb red green blue (some alpha) =>
    Text.call "rgba" [toString red, toString green, toString blue, rounded alpha 5]
  | hsl hue saturation lightness none =>
    Text.call "hsl" [rounded hue 2, rounded saturation 2 ++ "%", rounded lightness 2 ++ "%"]
  | hsl hue saturation lightness (some alpha) =>
    Text.call "hsla" [rounded hue 2, rounded saturation 2 ++ "%", rounded lightness 2 ++ "%",
      rounded alpha 5]

end Color

end StyleEngine
