import StyleEngine.RuleSet
import StyleEngine.Text.Hash

/-!
# The registry

A registry holds the rules of all styles and counts their changes. The class of a style is the hash
of its compiled text, so the same description always has the same class and is stored once. The registry
as it is stored, over a table with an index, is `IndexedRegistry`.
-/

namespace StyleEngine

structure Registry where
  rules : RuleSet := []
  version : Nat := 0

namespace Registry

/-- The text of all rules, in order. -/
def css (r : Registry) : String := r.rules.css

def size (r : Registry) : Nat := r.rules.length

/-- The selector that stands for the class while its name is not known. -/
def hashRoot : String := "&"

/-- A unique root is stored apart from shared blocks, so its hash is another. -/
def hashMarker (unique : Bool) : String := if unique then "$unique;" else ""

/-- The text that the name of a style is the hash of. -/
def hashText (style : NormalStyle) : String :=
  hashMarker style.unique ++ (RuleSet.ofNodes .byDeclarations (style.flatten hashRoot)).css

/-- `f` and the hash, behind the debug name if there is one. -/
def generatedName (debugName? : Option String) (hash : String) : String :=
  match debugName? with
  | some name => name ++ "_f" ++ hash
  | none => "f" ++ hash

/-- The class of a style. -/
def className (style : NormalStyle) : String :=
  generatedName style.debugName? (Text.hash (hashText style))

/-- The rules of a style, rooted at the selector of a class. -/
def compile (style : NormalStyle) (name : String) : RuleSet :=
  RuleSet.ofNodes .byDeclarations (style.flatten (Selector.ofClass name))

/-- The rules after a merge. A change counts once. -/
def update (r : Registry) : RuleSet × Bool → Registry
  | (rules, changed) => { rules, version := if changed then r.version + 1 else r.version }

/-- The flat nodes of a style registered against a literal selector, which may be an at-rule. -/
def literalNodes (selector : String) (style : NormalStyle) : List FlatNode :=
  if Selector.isAtRule selector then [style.flattenAtRule selector] else style.flatten selector

/-- The declarations of a description that may not nest. -/
def flatDeclarations (kind : FlatRuleKind) (d : Description) :
    Except StyleError (List Declaration) :=
  match d.normalize false with
  | .error e => .error e
  | .ok style =>
    match style.nested with
    | (selector, _) :: _ => .error (.unexpectedNesting kind selector)
    | [] => .ok style.declarations

/-- The declarations of all faces, or the first error. -/
def compileFaces : List Description → Except StyleError (List (List Declaration))
  | [] => .ok []
  | d :: rest =>
    match flatDeclarations .fontFace d with
    | .error e => .error e
    | .ok ds => (compileFaces rest).map (ds :: ·)

/-- Appends a font face. Equal ones are kept apart. -/
def addFace (r : Registry) (declarations : List Declaration) : Registry :=
  { rules := r.rules.append (.style ["@font-face"] (Declaration.sort declarations) true)
    version := r.version + 1 }

/-- The frames that have declarations, or the first error. -/
def compileFrames : List (String × Description) →
    Except StyleError (List (String × List Declaration))
  | [] => .ok []
  | (offset, d) :: rest =>
    match flatDeclarations .keyframes d with
    | .error e => .error e
    | .ok ds =>
      (compileFrames rest).map fun frames =>
        if ds.isEmpty then frames else (offset, Declaration.sort ds) :: frames

/-- The name of keyframes with these frames. -/
def framesName (k : Keyframes) (debug : Bool) (frames : List (String × List Declaration)) : String :=
  generatedName (if debug then k.shownName? else none) (Text.hash (framesCss frames))

/-! ## Registrations -/

/-- Work on a registry. When it fails, the registry stays as it is at that moment. -/
abbrev Work := ExceptT StyleError (StateM Registry)

/-- What work answers, beside the registry that it leaves. -/
def attempt {α : Type} (r : Registry) (work : Work α) : Except StyleError α × Registry := work.run.run r

/-- Stores a style under its class, which is returned. -/
def storeStyle (d : Description) (debug : Bool) : Work String := do
  let style ← d.normalize debug
  let name := className style
  let root := Selector.ofClass name
  modify fun r => r.update (r.rules.mergeStyle (compile style name) root)
  return name

/-- Stores a description against a literal selector. -/
def storeRule (selector : String) (d : Description) : Work Unit := do
  let style ← d.normalize false
  let compiled := RuleSet.ofNodes .bySelector (literalNodes selector style)
  modify fun r => r.update (r.rules.mergeLiteral compiled)

/-- Stores font faces. All of them are compiled before the first is stored, and a face without
declarations is left out. -/
def storeFaces (ds : List Description) : Work Unit := do
  let faces ← compileFaces ds
  for face in faces.filter (!·.isEmpty) do
    modify fun r => r.addFace face

/-- Stores keyframes under their name, which is returned. Without a frame nothing is stored. -/
def storeKeyframes (k : Keyframes) (debug : Bool) : Work String := do
  let frames ← compileFrames k.frames
  let name := framesName k debug frames
  if frames.isEmpty then return name
  modify fun r => r.update (r.rules.insertKeyframes name frames)
  return name

/-- An answer with the registry it was given in, or the error. -/
def answered {α : Type} : Except StyleError α × Registry → Except StyleError (α × Registry)
  | (.ok a, r) => .ok (a, r)
  | (.error e, _) => .error e

/-- The class of a style and the registry that has it. -/
def registerStyle (r : Registry) (d : Description) (debug : Bool) :
    Except StyleError (String × Registry) := answered (r.attempt (storeStyle d debug))

def registerRule (r : Registry) (selector : String) (d : Description) : Except StyleError Registry :=
  (answered (r.attempt (storeRule selector d))).map Prod.snd

def registerFaces (r : Registry) (ds : List Description) : Except StyleError Registry :=
  (answered (r.attempt (storeFaces ds))).map Prod.snd

/-- The name of keyframes and the registry that has them. -/
def registerKeyframes (r : Registry) (k : Keyframes) (debug : Bool) :
    Except StyleError (String × Registry) := answered (r.attempt (storeKeyframes k debug))

end Registry

end StyleEngine
