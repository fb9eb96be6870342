import StyleEngine.FlatNode

/-!
# Rule sets

A rule set is a list of rules in the order in which they came. Most rules stand under a key; a rule
that comes under a key that is present changes the rule there or is dropped. Keys are compared by
their text, and a rule without a key never meets another. How rules are stored, with an index of their
keys, is said by `RuleTable`.
-/

namespace StyleEngine

/-- What tells the rules of a set apart. -/
inductive RuleKey where
  /-- Rules of one style that share a block, and root rules of all styles. -/
  | shared (block : String)
  /-- A rule marked unique within one style. -/
  | unique (selector block : String)
  /-- A rule that belongs to the style that declared it. -/
  | owned (selectors block : String)
  /-- A rule for a literal selector. -/
  | literal (selectors : String)
  | atRule (rule body : String)
  | keyframes (name : String)
  deriving DecidableEq, Repr

/-- The character between the parts of a key's text. -/
def RuleKey.separator : String := "\x01"

/-- A letter for the kind of key, then its parts. -/
def RuleKey.text : RuleKey → String
  | shared block => separator.intercalate ["s", block]
  | unique selector block => separator.intercalate ["u", selector, block]
  | owned selectors block => separator.intercalate ["c", selectors, block]
  | literal selectors => separator.intercalate ["r", selectors]
  | atRule rule body => separator.intercalate ["b", rule, body]
  | keyframes name => separator.intercalate ["k", name]

/-- A compiled rule. -/
inductive Rule where
  | style (selectors : List String) (declarations : List Declaration) (unique : Bool)
  /-- An at-rule around a rule set. -/
  | atRule (rule : String) (body : List (Option RuleKey × Rule))
  | keyframes (name : String) (frames : List (String × List Declaration))

/-- Rules with their keys, in order. -/
abbrev RuleSet := List (Option RuleKey × Rule)

namespace Rule

/-- Adds the selectors that are not there yet, and says whether there were any. -/
def addSelectors : List String → List String → List String × Bool
  | selectors, [] => (selectors, false)
  | selectors, s :: rest =>
    if selectors.contains s then addSelectors selectors rest
    else ((addSelectors (selectors ++ [s]) rest).1, true)

/-- Adds selectors to a style rule. Other rules stay as they are. -/
def share (added : List String) : Rule → Rule × Bool
  | style selectors declarations unique =>
    let (selectors, changed) := addSelectors selectors added
    (style selectors declarations unique, changed)
  | rule => (rule, false)

/-- Replaces properties of a style rule. Other rules stay as they are. -/
def redeclare (new : List Declaration) : Rule → Rule × Bool
  | style selectors declarations unique =>
    let replaced := Declaration.replace declarations new
    (style selectors replaced unique, replaced != declarations)
  | rule => (rule, false)

/-- Leaves a rule as it is. -/
def keep (rule : Rule) : Rule × Bool := (rule, false)

end Rule

/-- The frames of an animation. -/
def framesCss (frames : List (String × List Declaration)) : String :=
  String.join (frames.map fun (offset, ds) => offset ++ "\x7b" ++ Declaration.cssAll ds ++ "\x7d")

/-- `head` and a body in braces. -/
def braced (head body : String) : String := head ++ "\x7b" ++ body ++ "\x7d"

/-- A rule whose selectors are all empty: its declarations stand bare in the body around it. -/
def Rule.isBare : Rule → Bool
  | .style selectors _ _ => selectors.all String.isEmpty
  | _ => false

mutual

/-- The CSS text of a rule. A rule without declarations and a block without text are not written. -/
def Rule.css : Rule → String
  | .style selectors declarations _ =>
    if declarations.isEmpty then ""
    else if selectors.all String.isEmpty then Declaration.cssAll declarations
    else braced (Selector.joinList selectors) (Declaration.cssAll declarations)
  | .atRule rule body =>
    let inner := cssFrom false body
    if inner.isEmpty then "" else braced rule inner
  | .keyframes name frames => braced ("@keyframes " ++ name) (framesCss frames)

/-- The texts of the rules. After bare declarations (`afterBare`) a semicolon precedes the next
text. -/
def cssFrom (afterBare : Bool) : List (Option RuleKey × Rule) → String
  | [] => ""
  | (_, rule) :: rest =>
    let text := rule.css
    if text.isEmpty then cssFrom afterBare rest
    else (if afterBare then ";" else "") ++ text ++ cssFrom rule.isBare rest

end

namespace RuleSet

/-- The CSS text of a rule set. -/
def css (rules : RuleSet) : String := cssFrom false rules

/-- Whether a rule stands under a key with this text. -/
def holds (key : RuleKey) (slot : Option RuleKey × Rule) : Bool :=
  slot.1.any fun k => k.text == key.text

/-- The rule under a key. -/
def find? (rules : RuleSet) (key : RuleKey) : Option Rule :=
  (List.find? (holds key) rules).map Prod.snd

/-- Revises the rule under `key`, or appends `fresh` if there is none. The flag says whether the set
changed. -/
def place (key : RuleKey) (fresh : Rule) (revise : Rule → Rule × Bool) : RuleSet → RuleSet × Bool
  | [] => ([(some key, fresh)], true)
  | slot :: rest =>
    if holds key slot then
      let (rule, changed) := revise slot.2
      ((slot.1, rule) :: rest, changed)
    else
      let (rest, changed) := place key fresh revise rest
      (slot :: rest, changed)

/-- A block without rules is dropped, and one with the text of an earlier one as well. -/
def insertBlock (rules : RuleSet) (rule : String) (body : RuleSet) : RuleSet × Bool :=
  if body.isEmpty then (rules, false)
  else place (.atRule rule body.css) (.atRule rule body) Rule.keep rules

/-- Keyframes are known by their name. -/
def insertKeyframes (rules : RuleSet) (name : String) (frames : List (String × List Declaration)) :
    RuleSet × Bool :=
  place (.keyframes name) (.keyframes name frames) Rule.keep rules

/-- Appends a rule without a key. -/
def append (rules : RuleSet) (rule : Rule) : RuleSet := rules ++ [(none, rule)]

end RuleSet

/-- How the nodes of one style meet. -/
inductive Sharing where
  /-- Rules with one block share a rule; unique ones meet only their equals. -/
  | byDeclarations
  /-- Rules with one selector share a rule; later declarations replace earlier ones. -/
  | bySelector
  deriving DecidableEq, Repr

namespace RuleSet

/-- Adds a flat rule. One without declarations is dropped. -/
def insertRule (sharing : Sharing) (rules : RuleSet) (selector : String)
    (declarations : List Declaration) (unique : Bool) : RuleSet :=
  if declarations.isEmpty then rules
  else
    let declarations := Declaration.sort declarations
    match sharing with
    | .byDeclarations =>
      let block := Declaration.cssAll declarations
      let key := if unique then .unique selector block else .shared block
      (place key (.style [selector] declarations unique) (Rule.share [selector]) rules).1
    | .bySelector =>
      (place (.literal selector) (.style [selector] declarations false) (Rule.redeclare declarations)
        rules).1

mutual

/-- Adds a flat node. The body of an at-rule is a rule set of its own. -/
def insertNode (sharing : Sharing) (rules : RuleSet) : FlatNode → RuleSet
  | .rule selector declarations unique => insertRule sharing rules selector declarations unique
  | .atRule rule children => (insertBlock rules rule (insertNodes sharing [] children)).1

def insertNodes (sharing : Sharing) (rules : RuleSet) : List FlatNode → RuleSet
  | [] => rules
  | node :: rest => insertNodes sharing (insertNode sharing rules node) rest

end

/-- The rule set of flat nodes. -/
def ofNodes (sharing : Sharing) (nodes : List FlatNode) : RuleSet := insertNodes sharing [] nodes

/-- Merges a rule of a style. A root rule that is not unique shares its block with every style, and
any other rule belongs to its own selectors. -/
def mergeStyleRule (root : String) (rules : RuleSet) : Rule → RuleSet × Bool
  | .style selectors declarations unique =>
    let block := Declaration.cssAll declarations
    let fresh := Rule.style selectors declarations unique
    if !unique && selectors.contains root then
      place (.shared block) fresh (Rule.share selectors) rules
    else place (.owned (Selector.joinList selectors) block) fresh Rule.keep rules
  | .atRule rule body => insertBlock rules rule body
  | .keyframes name frames => insertKeyframes rules name frames

/-- Merges a rule for a literal selector. -/
def mergeLiteralRule (rules : RuleSet) : Rule → RuleSet × Bool
  | .style selectors declarations unique =>
    place (.literal (Selector.joinList selectors)) (.style selectors declarations unique)
      (Rule.redeclare declarations) rules
  | .atRule rule body => insertBlock rules rule body
  | .keyframes name frames => insertKeyframes rules name frames

/-- Merges rules one after the other. The flag says whether any of them changed the set. -/
def mergeAll (merge : RuleSet → Rule → RuleSet × Bool) : RuleSet → RuleSet → RuleSet × Bool
  | rules, [] => (rules, false)
  | rules, (_, rule) :: rest =>
    let (rules, changed) := merge rules rule
    let (rules, changed') := mergeAll merge rules rest
    (rules, changed || changed')

/-- Merges the rules of a style with the given root selector. -/
def mergeStyle (rules compiled : RuleSet) (root : String) : RuleSet × Bool :=
  mergeAll (mergeStyleRule root) rules compiled

/-- Merges rules for literal selectors. -/
def mergeLiteral (rules compiled : RuleSet) : RuleSet × Bool :=
  mergeAll mergeLiteralRule rules compiled

end RuleSet

end StyleEngine
