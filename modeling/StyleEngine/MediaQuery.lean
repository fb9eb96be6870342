import StyleEngine.Description.Extend
import StyleEngine.Number.Shortest

/-!
# Media queries

A media query is a media type, an orientation and bounds on width and height, each optional. It is
written as the text of an at-rule.
-/

namespace StyleEngine

inductive MediaType where
  | screen
  | print
  | all
  deriving DecidableEq, Repr

def MediaType.name : MediaType → String
  | screen => "screen"
  | print => "print"
  | all => "all"

inductive Orientation where
  | landscape
  | portrait
  deriving DecidableEq, Repr

def Orientation.name : Orientation → String
  | landscape => "landscape"
  | portrait => "portrait"

/-- A length in a media query: pixels, or text that stands as it is. -/
inductive MediaLength where
  | px (x : Float)
  | raw (s : String)

/-- Zero, NaN and the empty text are no bounds. -/
def MediaLength.isSet : MediaLength → Bool
  | px x => x != 0.0 && !x.isNaN
  | raw s => !s.isEmpty

def MediaLength.css : MediaLength → String
  | px x => Number.format x ++ "px"
  | raw s => s

structure MediaQuery where
  type? : Option MediaType := none
  orientation? : Option Orientation := none
  minWidth? : Option MediaLength := none
  maxWidth? : Option MediaLength := none
  minHeight? : Option MediaLength := none
  maxHeight? : Option MediaLength := none

namespace MediaQuery

/-- The text of a bound that is set. -/
def feature? (name : String) (length? : Option MediaLength) : Option String :=
  (length?.filter MediaLength.isSet).map fun l => "(" ++ name ++ ": " ++ l.css ++ ")"

/-- The parts that are present, in the order of writing. -/
def sections (q : MediaQuery) : List String :=
  [q.type?.map MediaType.name, q.orientation?.map Orientation.name,
    feature? "min-width" q.minWidth?, feature? "max-width" q.maxWidth?,
    feature? "min-height" q.minHeight?, feature? "max-height" q.maxHeight?].filterMap id

/-- The at-rule of a query. -/
def atRule (q : MediaQuery) : String := "@media " ++ " and ".intercalate q.sections

end MediaQuery

/-- The merged descriptions under the at-rule of a query. -/
def Description.media (q : MediaQuery) (ds : List (Option Description)) : Description :=
  (extend ds).wrap q.atRule

end StyleEngine
