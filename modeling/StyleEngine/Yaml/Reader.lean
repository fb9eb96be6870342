import StyleEngine.Yaml.Node
import StyleEngine.Yaml.Schema

/-!
# Reading YAML

The data of a node tree. An alias stands for the node with its anchor, so the tree may unfold
without end. Therefore lists and maps nest at most 128 deep, and the number of aliases that are
followed is limited too.
-/

namespace StyleEngine.Yaml

/-- The deepest nesting that is read. -/
def maxDepth : Nat := 128

/-- How many aliases may be followed for each start and end of a node. -/
def aliasesPerEvent : Nat := 100

/-- Whether a tag is one of the author's own. They start with an exclamation mark and are texts. -/
def isOwnTag (tag : Octets) : Bool :=
  tag.head? = some 0x21 && ByteArray.validateUTF8 ⟨tag.toArray⟩

def Mark.hasOwnTag (m : Mark) : Bool := m.tag?.any isOwnTag

/-- What a scalar stands for. The standard tags of nothing, booleans, integers and fractions have it
read as such. With any other tag, and without plain style, it is a text. -/
def scalar? (mark : Mark) (plain : Bool) (s : String) : Option Data :=
  match mark.tag? with
  | none => if plain then plain? s else some (.text s)
  | some tag =>
    if isOwnTag tag then none
    else if tag = standardTag "bool" then (boolean? s).map .boolean
    else if tag = standardTag "int" then ((integer? s).bind numeral?).map .number
    else if tag = standardTag "float" then fraction? s
    else if tag = standardTag "null" then (if isNull s then some .null else none)
    else if tag.head? = some 0x21 && plain then plain? s
    else some (.text s)

/-- A reading that may fail and follows aliases while some are left. -/
abbrev Unfolding := StateT Nat Option

/-- The node that an alias stands for. -/
def follow (anchored : Nat → Option Node) : Node → Unfolding Node
  | .alias n => do
    let left ← get
    if left = 0 then failure
    else
      set (left - 1)
      StateT.lift (anchored n)
  | node => pure node

/-- A key is a scalar, taken as it is written. -/
def key (anchored : Nat → Option Node) (node : Node) : Unfolding String := do
  match ← follow anchored node with
  | .scalar _ _ text => pure text
  | _ => failure

/-- The data of a node that nests at most `depth` deep. -/
def unfold (anchored : Nat → Option Node) : (depth : Nat) → Node → Unfolding Data
  | 0, node => do
    match ← follow anchored node with
    | .scalar mark plain text => StateT.lift (scalar? mark plain text)
    | _ => failure
  | depth + 1, node => do
    match ← follow anchored node with
    | .scalar mark plain text => StateT.lift (scalar? mark plain text)
    | .list mark items =>
      if mark.hasOwnTag then failure
      else return .list (← items.mapM (unfold anchored depth))
    | .map mark members =>
      if mark.hasOwnTag then failure
      else
        let members ← members.mapM fun (k, v) => do
          return (← key anchored k, ← unfold anchored depth v)
        return .map (Keyed.putAll [] members)
    | .alias _ => failure

/-- The data of a root. Of the nodes with one anchor the last stands for it. -/
def Node.toData? (root : Node) : Option Data :=
  let all := root.nodes
  let anchored := fun n => all.reverse.find? (·.anchor? = some n)
  let aliases := aliasesPerEvent * (all.map weight).foldl (· + ·) 0
  (unfold anchored maxDepth root).run' aliases

/-- The data of a text. An empty text is null. -/
def read? (s : String) : Option Data := do
  (← Node.ofTokens? (← tokens? s)).toData?

example : (read? "a: &x 1\n*x : 2").map Data.kind = some .map := by decide +kernel
example : (read? "a: *x").map Data.kind = none := by decide +kernel

end StyleEngine.Yaml
