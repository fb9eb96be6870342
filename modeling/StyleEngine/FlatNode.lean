import StyleEngine.NormalStyle
import StyleEngine.Selector

/-!
# Flat nodes

A style is flattened into rules with full selectors, one for each level, the level itself before
its children. At-rules stay nested: what is below one is flattened against the same parent.
-/

namespace StyleEngine

inductive FlatNode where
  | rule (selector : String) (declarations : List Declaration) (unique : Bool)
  | atRule (rule : String) (children : List FlatNode)

namespace NormalStyle

mutual

/-- The rules of a style whose selector is `root`. -/
def flatten (root : String) : NormalStyle → List FlatNode
  | ⟨declarations, nested, unique, _⟩ =>
    .rule root declarations unique :: flattenNested root nested

def flattenNested (root : String) : List (String × NormalStyle) → List FlatNode
  | [] => []
  | (key, child) :: rest =>
    (if Selector.isAtRule key then [.atRule key (child.flatten root)]
      else child.flatten (Selector.compose root key)) ++ flattenNested root rest

end

/-- A key below a literal at-rule: there is no parent, so `&` is dropped. -/
def orphanSelector (key : String) : String := Text.trim (Selector.substitute "" key)

mutual

/-- The body of a literal at-rule: bare declarations, then the nested keys as selectors. -/
def body : NormalStyle → List FlatNode
  | ⟨declarations, nested, unique, _⟩ => .rule "" declarations unique :: bodyNested nested

def bodyNested : List (String × NormalStyle) → List FlatNode
  | [] => []
  | (key, child) :: rest =>
    (if Selector.isAtRule key then [.atRule key child.body]
      else child.flatten (orphanSelector key)) ++ bodyNested rest

end

/-- A style that stands right under an at-rule. -/
def flattenAtRule (rule : String) (style : NormalStyle) : FlatNode := .atRule rule style.body

end NormalStyle

end StyleEngine
