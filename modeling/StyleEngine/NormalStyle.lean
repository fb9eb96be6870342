import StyleEngine.Declaration
import StyleEngine.Description

/-!
# Normal styles

A normal style is a description whose values are texts and whose directives are used up. Falsy
values are gone, lists have become fallbacks, and a priority has become a level that repeats `&`.
Properties are written with hyphens: camel case names and vendor names are turned into that form,
and custom properties are left alone.
-/

namespace StyleEngine

namespace Property

def hyphenateChar (c : Char) : List Char := if c.isUpper then ['-', c.toLower] else [c]

/-- The `ms` vendor prefix is the one that starts with a small letter. -/
def vendorDash : List Char → List Char
  | 'm' :: 's' :: '-' :: rest => '-' :: 'm' :: 's' :: '-' :: rest
  | cs => cs

def hyphenateChars : List Char → List Char
  | '-' :: '-' :: rest => '-' :: '-' :: rest
  | cs => vendorDash (cs.flatMap hyphenateChar)

def hyphenate (name : String) : String := String.ofList (hyphenateChars name.toList)

example : hyphenate "WebkitTransition" = "-webkit-transition" := by decide
example : hyphenate "msTransform" = "-ms-transform" := by decide

end Property

structure NormalStyle where
  declarations : List Declaration := []
  nested : List (String × NormalStyle) := []
  unique : Bool := false
  /-- Present in debug mode only. -/
  debugName? : Option String := none

/-- The deepest nesting that is accepted. -/
def maxNesting : Nat := 128

namespace Description

/-- The declarations of one property, or the first error. -/
def renderValues (property : String) : List Value → Except StyleError (List Declaration)
  | [] => .ok []
  | v :: rest =>
    match v.css with
    | .error e => .error e
    | .ok s => (renderValues property rest).map (⟨property, s⟩ :: ·)

/-- A falsy value declares nothing. -/
def renderEntry (property : String) (value : Value) : Except StyleError (List Declaration) :=
  if value.isFalsy then .ok [] else renderValues (Property.hyphenate property) value.fallbacks

/-- The declarations of all properties in order, or the first error. -/
def renderDeclarations : List (String × Value) → Except StyleError (List Declaration)
  | [] => .ok []
  | (property, value) :: rest =>
    match renderEntry property value with
    | .error e => .error e
    | .ok ds => (renderDeclarations rest).map (ds ++ ·)

/-- `&` repeated. -/
def repeatParent (n : Nat) : String := String.ofList (List.replicate n '&')

/-- A style of priority `p` nests under `p + 1` times `&`. The debug name moves outside, the unique
flag stays inside. -/
def raisePriority (priority : Nat) (style : NormalStyle) : NormalStyle :=
  if priority = 0 then style
  else
    { nested := [(repeatParent (priority + 1), { style with debugName? := none })]
      debugName? := style.debugName? }

mutual

/-- Normalizes a description at `depth`: the depth is checked first, then the declarations in order,
then the children in order. Priorities do not count as levels. -/
def normalizeAt (debug : Bool) (depth : Nat) : Description → Except StyleError NormalStyle
  | ⟨declarations, nested, unique?, debugName?, priority?⟩ =>
    if maxNesting < depth then .error (.nestingTooDeep maxNesting)
    else
      match renderDeclarations declarations with
      | .error e => .error e
      | .ok declarations =>
        match normalizeAll debug (depth + 1) nested with
        | .error e => .error e
        | .ok nested =>
          .ok (raisePriority (priority?.getD 0)
            { declarations, nested, unique := unique?.getD false
              debugName? := if debug then debugName?.filter (!·.isEmpty) else none })

def normalizeAll (debug : Bool) (depth : Nat) :
    List (String × Description) → Except StyleError (List (String × NormalStyle))
  | [] => .ok []
  | (selector, child) :: rest =>
    match normalizeAt debug depth child with
    | .error e => .error e
    | .ok style => (normalizeAll debug depth rest).map ((selector, style) :: ·)

end

/-- The normal style of a description. Debug names survive in debug mode. -/
def normalize (d : Description) (debug : Bool) : Except StyleError NormalStyle :=
  normalizeAt debug 0 d

end Description

end StyleEngine
