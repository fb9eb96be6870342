import StyleEngine.Registry
import StyleEngine.RuleTable

/-!
# Registries over a rule table

The registry as it is stored: a rule table and the count of its changes. What is stored under which
key, and what is returned, is said more simply by `Registry`; the two agree step by step.
-/

namespace StyleEngine

structure IndexedRegistry where
  rules : RuleTable := {}
  version : Nat := 0

namespace IndexedRegistry

/-- The text of all entries, in order. -/
def css (r : IndexedRegistry) : String := r.rules.css

def size (r : IndexedRegistry) : Nat := r.rules.entries.length

def bump (r : IndexedRegistry) : IndexedRegistry := { r with version := r.version + 1 }

/-- Work on a registry. Work that fails leaves the registry as it is at that moment, and work that goes
to a position beyond the entries comes to no result at all. -/
abbrev Work := ExceptT StyleError (StateT IndexedRegistry Option)

/-- What work answers, beside the registry that it leaves. -/
def attempt {α : Type} (r : IndexedRegistry) (work : Work α) : Option (Except StyleError α × IndexedRegistry) :=
  work.run.run r

/-- Changes the rules. A change counts once. -/
def alter (change : RuleTable → Option (RuleTable × Bool)) : Work Unit := do
  let (rules, changed) ← change (← get).rules
  modify fun r => { r with rules }
  if changed then modify bump

/-- Stores a style under its class, which is returned. -/
def storeStyle (d : Description) (debug : Bool) : Work String := do
  let style ← d.normalize debug
  let hashed ← RuleTable.ofNodes .byDeclarations (style.flatten Registry.hashRoot)
  let hash := Text.hash (Registry.hashMarker style.unique ++ hashed.css)
  let name := Registry.generatedName style.debugName? hash
  let root := Selector.ofClass name
  let compiled ← RuleTable.ofNodes .byDeclarations (style.flatten root)
  alter fun rules => rules.mergeStyle compiled root
  return name

/-- Stores a description against a literal selector. -/
def storeRule (selector : String) (d : Description) : Work Unit := do
  let style ← d.normalize false
  let compiled ← RuleTable.ofNodes .bySelector (Registry.literalNodes selector style)
  alter fun rules => rules.mergeLiteral compiled

/-- Stores font faces. All of them are compiled before the first is stored, and a face without
declarations is left out. -/
def storeFaces (ds : List Description) : Work Unit := do
  let faces ← Registry.compileFaces ds
  for face in faces.filter (!·.isEmpty) do
    modify fun r => { r with rules := r.rules.pushUnkeyed "@font-face" face }
    modify bump

/-- Stores keyframes under their name, which is returned. Without a frame nothing is stored. -/
def storeKeyframes (k : Keyframes) (debug : Bool) : Work String := do
  let frames ← Registry.compileFrames k.frames
  let name := Registry.framesName k debug frames
  if frames.isEmpty then return name
  alter fun rules => some (rules.insertKeyframes name frames)
  return name

end IndexedRegistry

end StyleEngine
