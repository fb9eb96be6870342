import StyleEngine.Keyed
import StyleEngine.RuleSet

/-!
# Rule tables

How the rules of a set are stored: the entries in the order in which they came, and an index from the
texts of keys to positions. Only a push writes to the index, and it writes the position of the end.
Whatever comes under a key is looked up there and changes the entry at that position. A position
beyond the entries has no entry to change, so these operations may come to no result.
-/

namespace StyleEngine

mutual

/-- A stored rule. The body of a block is a table of its own. -/
inductive Entry where
  | style (selectors : List String) (declarations : List Declaration) (unique : Bool)
  | block (rule : String) (body : RuleTable)
  | keyframes (name : String) (frames : List (String × List Declaration))

structure RuleTable where
  entries : List Entry := []
  index : List (String × Nat) := []

end

/-- An entry that writes its declarations bare into the body around it. -/
def Entry.isBare : Entry → Bool
  | .style selectors _ _ => selectors.all String.isEmpty
  | _ => false

mutual

/-- The CSS text of an entry. One without declarations and a block without text are not written. -/
def Entry.css : Entry → String
  | .style selectors declarations _ =>
    if declarations.isEmpty then ""
    else if selectors.all String.isEmpty then Declaration.cssAll declarations
    else braced (Selector.joinList selectors) (Declaration.cssAll declarations)
  | .block rule body =>
    let inner := body.css
    if inner.isEmpty then "" else braced rule inner
  | .keyframes name frames => braced ("@keyframes " ++ name) (framesCss frames)

/-- The CSS text of a table. -/
def RuleTable.css : RuleTable → String
  | ⟨entries, _⟩ => entriesCss false entries

/-- The texts of entries. After bare declarations (`afterBare`) a semicolon precedes the next text. -/
def entriesCss (afterBare : Bool) : List Entry → String
  | [] => ""
  | entry :: rest =>
    let text := entry.css
    if text.isEmpty then entriesCss afterBare rest
    else (if afterBare then ";" else "") ++ text ++ entriesCss entry.isBare rest

end

namespace Entry

/-- Adds the selectors that are not there yet. An entry of another kind is silently left as it is. -/
def addSelectors (added : List String) : Entry → Entry × Bool
  | style selectors declarations unique =>
    let (selectors, changed) := Rule.addSelectors selectors added
    (style selectors declarations unique, changed)
  | entry => (entry, false)

/-- Replaces properties. An entry of another kind is silently left as it is. -/
def mergeDeclarations (new : List Declaration) : Entry → Entry × Bool
  | style selectors declarations unique =>
    let replaced := Declaration.replace declarations new
    (style selectors replaced unique, replaced != declarations)
  | entry => (entry, false)

end Entry

namespace RuleTable

def isEmpty (t : RuleTable) : Bool := t.entries.isEmpty

/-- The position that a key points to. -/
def position? (t : RuleTable) (key : RuleKey) : Option Nat := t.index.lookup key.text

/-- Appends an entry. Its key, if it has one, points to it from now on. -/
def push (t : RuleTable) (key? : Option RuleKey) (entry : Entry) : RuleTable where
  entries := t.entries ++ [entry]
  index :=
    match key? with
    | some key => Keyed.put key.text t.entries.length t.index
    | none => t.index

/-- Changes the entry at a position, and says whether it did. -/
def amend (t : RuleTable) (position : Nat) (change : Entry → Entry × Bool) : Option (RuleTable × Bool) :=
  match t.entries[position]? with
  | none => none
  | some entry =>
    let (entry, changed) := change entry
    some ({ t with entries := t.entries.set position entry }, changed)

/-- Changes the entry that the key points to, or pushes a fresh one. -/
def amendOrPush (t : RuleTable) (key : RuleKey) (change : Entry → Entry × Bool) (fresh : Entry) :
    Option (RuleTable × Bool) :=
  match t.position? key with
  | some position => t.amend position change
  | none => some (t.push (some key) fresh, true)

/-- Pushes an entry unless its key points to one already. -/
def pushNew (t : RuleTable) (key : RuleKey) (fresh : Entry) : RuleTable × Bool :=
  if (t.position? key).isSome then (t, false) else (t.push (some key) fresh, true)

/-- Adds an at-rule block unless it is empty or an identical one is present. -/
def insertBlock (t : RuleTable) (rule : String) (body : RuleTable) : RuleTable × Bool :=
  if body.isEmpty then (t, false) else t.pushNew (.atRule rule body.css) (.block rule body)

/-- Adds keyframes unless some with the name are present. -/
def insertKeyframes (t : RuleTable) (name : String) (frames : List (String × List Declaration)) :
    RuleTable × Bool := t.pushNew (.keyframes name) (.keyframes name frames)

/-- Appends a block without a key. -/
def pushUnkeyed (t : RuleTable) (selector : String) (declarations : List Declaration) : RuleTable :=
  t.push none (.style [selector] (Declaration.sort declarations) true)

/-- Adds a flat rule. One without declarations is dropped. -/
def insertRule (sharing : Sharing) (t : RuleTable) (selector : String) (declarations : List Declaration)
    (unique : Bool) : Option RuleTable :=
  if declarations.isEmpty then some t
  else
    let declarations := Declaration.sort declarations
    match sharing with
    | .byDeclarations =>
      let block := Declaration.cssAll declarations
      let key := if unique then .unique selector block else .shared block
      (t.amendOrPush key (Entry.addSelectors [selector]) (.style [selector] declarations unique)).map Prod.fst
    | .bySelector =>
      (t.amendOrPush (.literal selector) (Entry.mergeDeclarations declarations)
        (.style [selector] declarations false)).map Prod.fst

mutual

/-- Adds a flat node. The body of an at-rule is a table of its own. -/
def insertNode (sharing : Sharing) (t : RuleTable) : FlatNode → Option RuleTable
  | .rule selector declarations unique => t.insertRule sharing selector declarations unique
  | .atRule rule children => (insertNodes sharing {} children).map fun body => (t.insertBlock rule body).1

def insertNodes (sharing : Sharing) (t : RuleTable) : List FlatNode → Option RuleTable
  | [] => some t
  | node :: rest => (insertNode sharing t node).bind fun t => insertNodes sharing t rest

end

/-- The table of flat nodes. -/
def ofNodes (sharing : Sharing) (nodes : List FlatNode) : Option RuleTable := insertNodes sharing {} nodes

/-- Merges an entry of a style. The root rule shares its entry with every style that has its block, and
any other rule belongs to its own selectors. -/
def mergeStyleEntry (root : String) (t : RuleTable) : Entry → Option (RuleTable × Bool)
  | .style selectors declarations unique =>
    let block := Declaration.cssAll declarations
    let fresh := Entry.style selectors declarations unique
    if !unique && selectors.contains root then t.amendOrPush (.shared block) (Entry.addSelectors selectors) fresh
    else some (t.pushNew (.owned (Selector.joinList selectors) block) fresh)
  | .block rule body => some (t.insertBlock rule body)
  | .keyframes name frames => some (t.insertKeyframes name frames)

/-- Merges an entry for a literal selector. -/
def mergeLiteralEntry (t : RuleTable) : Entry → Option (RuleTable × Bool)
  | .style selectors declarations unique =>
    t.amendOrPush (.literal (Selector.joinList selectors)) (Entry.mergeDeclarations declarations)
      (.style selectors declarations unique)
  | .block rule body => some (t.insertBlock rule body)
  | .keyframes name frames => some (t.insertKeyframes name frames)

/-- Merges entries one after the other. The flag says whether any of them changed the table. -/
def mergeAll (merge : RuleTable → Entry → Option (RuleTable × Bool)) :
    RuleTable → List Entry → Option (RuleTable × Bool)
  | t, [] => some (t, false)
  | t, entry :: rest =>
    (merge t entry).bind fun (t, changed) =>
      (mergeAll merge t rest).map fun (t, changed') => (t, changed || changed')

/-- Merges the entries of a style with the given root selector. -/
def mergeStyle (t compiled : RuleTable) (root : String) : Option (RuleTable × Bool) :=
  mergeAll (mergeStyleEntry root) t compiled.entries

/-- Merges entries for literal selectors. -/
def mergeLiteral (t compiled : RuleTable) : Option (RuleTable × Bool) :=
  mergeAll mergeLiteralEntry t compiled.entries

end RuleTable

end StyleEngine
