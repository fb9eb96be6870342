import StyleEngine.Proofs.Keyed.Storing
import StyleEngine.Proofs.RuleSet.Deposit
import StyleEngine.RuleTable

/-!
# The table of a rule set

A rule set is a list of rules with their keys. Its table (`RuleSet.table`) has the rules as entries, without
their keys, and an index with the position of every rule that has a key, in order. Each operation of a table
does to the table of a rule set what the operation of rule sets does to the rule set: pushing
(`table_append`, `push_table`), going to a position that the index knows (`amendOrPush_table`), and so compiling
(`ofNodes_table`) and merging (`mergeStyle_table`, `mergeLiteral_table`). In particular these operations come to
a result.
-/

namespace StyleEngine

/-- The texts of keys with the positions at which the keys stand, from `n` on. -/
def indexFrom (n : Nat) : List (Option RuleKey) → List (String × Nat)
  | [] => []
  | some key :: rest => (key.text, n) :: indexFrom (n + 1) rest
  | none :: rest => indexFrom (n + 1) rest

mutual

/-- The entry of a rule. -/
def Rule.entry : Rule → Entry
  | .style selectors declarations unique => .style selectors declarations unique
  | .atRule rule body => .block rule ⟨entriesOf body, indexFrom 0 (body.map Prod.fst)⟩
  | .keyframes name frames => .keyframes name frames

def entriesOf : List (Option RuleKey × Rule) → List Entry
  | [] => []
  | (_, rule) :: rest => rule.entry :: entriesOf rest

end

/-- The table of a rule set. -/
def RuleSet.table (rules : RuleSet) : RuleTable := ⟨entriesOf rules, indexFrom 0 (rules.map Prod.fst)⟩

theorem entriesOf_eq_map (rules : List (Option RuleKey × Rule)) :
    entriesOf rules = rules.map fun slot => slot.2.entry := by
  induction rules with
  | nil => rfl
  | cons slot rest ih => rw [entriesOf, ih]; rfl

theorem Rule.entry_atRule (rule : String) (body : RuleSet) :
    (Rule.atRule rule body).entry = .block rule body.table := rfl

/-! ## Texts -/

theorem Rule.isBare_entry (rule : Rule) : rule.entry.isBare = rule.isBare := by
  cases rule <;> rfl

mutual

theorem Rule.css_entry : ∀ rule : Rule, rule.entry.css = rule.css
  | .style _ _ _ => rfl
  | .atRule rule body => by rw [Rule.entry, Entry.css, RuleTable.css, css_entriesOf false body, Rule.css]
  | .keyframes _ _ => rfl

theorem css_entriesOf (afterBare : Bool) :
    ∀ rules : List (Option RuleKey × Rule), entriesCss afterBare (entriesOf rules) = cssFrom afterBare rules
  | [] => rfl
  | (_, rule) :: rest => by
    rw [entriesOf, entriesCss, cssFrom, Rule.css_entry rule, Rule.isBare_entry rule, css_entriesOf afterBare rest,
      css_entriesOf rule.isBare rest]

end

theorem RuleSet.css_table (rules : RuleSet) : rules.table.css = rules.css := css_entriesOf false rules

/-! ## The index -/

theorem indexFrom_append (n : Nat) (first second : List (Option RuleKey)) :
    indexFrom n (first ++ second) = indexFrom n first ++ indexFrom (n + first.length) second := by
  induction first generalizing n with
  | nil => rfl
  | cons key? rest ih =>
    have hn : n + (key? :: rest).length = n + 1 + rest.length := by rw [List.length_cons]; omega
    rw [hn, List.cons_append]
    cases key? with
    | none => exact ih (n + 1)
    | some key => exact congrArg _ (ih (n + 1))

namespace RuleSet

variable {rules : RuleSet} {key : RuleKey} {fresh : Rule}

/-- A key is looked up at the first slot that holds it. -/
theorem lookup_indexFrom (n : Nat) (rules : RuleSet) (key : RuleKey) :
    (indexFrom n (rules.map Prod.fst)).lookup key.text = (rules.findIdx? (holds key)).map (· + n) := by
  induction rules generalizing n with
  | nil => rfl
  | cons slot rest ih =>
    obtain ⟨key?, rule⟩ := slot
    have hshift : (rest.findIdx? (holds key)).map (· + (n + 1)) =
        ((rest.findIdx? (holds key)).map (· + 1)).map (· + n) := by
      rw [Option.map_map]
      exact Option.map_congr fun i _ => by show i + (n + 1) = i + 1 + n; omega
    rw [List.findIdx?_cons]
    cases key? with
    | none => exact (ih (n + 1)).trans hshift
    | some k =>
      rw [List.map_cons, indexFrom]
      by_cases hk : k.text = key.text
      · simp [holds, hk]
      · rw [Keyed.lookup_cons_ne fun h => hk h.symm, ih, hshift]
        simp [holds, hk]

theorem position?_table (rules : RuleSet) (key : RuleKey) :
    rules.table.position? key = rules.findIdx? (holds key) := by
  rw [RuleTable.position?, table, lookup_indexFrom]
  exact Option.map_id'

theorem getElem?_table {i : Nat} {slot : Option RuleKey × Rule} (h : rules[i]? = some slot) :
    rules.table.entries[i]? = some slot.2.entry := by
  rw [table, entriesOf_eq_map, List.getElem?_map, h]
  rfl

/-! ## Pushing and amending -/

theorem length_table (rules : RuleSet) : rules.table.entries.length = rules.length := by
  rw [table, entriesOf_eq_map, List.length_map]

theorem entriesOf_append (first second : RuleSet) :
    entriesOf (first ++ second) = entriesOf first ++ entriesOf second := by
  rw [entriesOf_eq_map, entriesOf_eq_map, entriesOf_eq_map, List.map_append]

/-- Pushing without a key. -/
theorem table_append (rules : RuleSet) (rule : Rule) :
    (rules.append rule).table = rules.table.push none rule.entry := by
  rw [append, table, entriesOf_append, List.map_append, indexFrom_append]
  exact congrArg (RuleTable.mk _) (List.append_nil _)

/-- A key that nothing stands under comes last in the index. -/
theorem push_table (h : rules.findIdx? (holds key) = none) (rule : Rule) :
    rules.table.push (some key) rule.entry = table (rules ++ [(some key, rule)]) := by
  have habsent : key.text ∉ Keyed.keys (indexFrom 0 (rules.map Prod.fst)) := by
    rw [← Keyed.lookup_eq_none_iff, lookup_indexFrom, h]
    rfl
  have hindex : Keyed.put key.text rules.table.entries.length rules.table.index =
      indexFrom 0 (rules.map Prod.fst) ++ [(key.text, rules.length)] := by
    rw [length_table]
    exact Keyed.put_of_notMem habsent _
  have htable : table (rules ++ [(some key, rule)]) =
      ⟨entriesOf rules ++ [rule.entry], indexFrom 0 (rules.map Prod.fst) ++ [(key.text, rules.length)]⟩ := by
    have hlength : 0 + (rules.map Prod.fst).length = rules.length := by rw [List.length_map, Nat.zero_add]
    rw [table, entriesOf_append, List.map_append, indexFrom_append, hlength]
    rfl
  rw [htable, ← hindex]
  rfl

/-- A rule changes in place and keeps its key. -/
theorem table_set {i : Nat} {slot : Option RuleKey × Rule} (h : rules[i]? = some slot) (rule : Rule) :
    table (rules.set i (slot.1, rule)) = { rules.table with entries := rules.table.entries.set i rule.entry } := by
  have hkeys : (rules.set i (slot.1, rule)).map Prod.fst = rules.map Prod.fst := by
    have hsame : (rules.map Prod.fst)[i]? = some slot.1 := by rw [List.getElem?_map, h]; rfl
    obtain ⟨hi, hget⟩ := List.getElem?_eq_some_iff.mp hsame
    rw [List.map_set, ← hget, List.set_getElem_self]
  rw [table, hkeys, entriesOf_eq_map, List.map_set, ← entriesOf_eq_map]
  rfl

/-- What comes under a key does to the table what placing it does to the rule set. The index knows a position
exactly when a rule stands under the key. -/
theorem amendOrPush_table {revise : Rule → Rule × Bool} {change : Entry → Entry × Bool}
    (hchange : ∀ rule, change rule.entry = ((revise rule).1.entry, (revise rule).2)) (rules : RuleSet)
    (key : RuleKey) (fresh : Rule) :
    rules.table.amendOrPush key change fresh.entry =
      some ((place key fresh revise rules).1.table, (place key fresh revise rules).2) := by
  rw [RuleTable.amendOrPush, position?_table]
  rcases place_eq rules key fresh revise with ⟨habsent, hplace⟩ | ⟨i, slot, hfound, hi, -, hplace⟩
  · rw [hplace, habsent]
    exact congrArg (fun t => some (t, true)) (push_table habsent fresh)
  · rw [hplace, hfound]
    simp only [RuleTable.amend, getElem?_table hi, hchange, table_set hi]

theorem pushNew_table (rules : RuleSet) (key : RuleKey) (fresh : Rule) :
    rules.table.pushNew key fresh.entry =
      ((place key fresh Rule.keep rules).1.table, (place key fresh Rule.keep rules).2) := by
  rw [RuleTable.pushNew, position?_table]
  rcases place_eq rules key fresh Rule.keep with ⟨habsent, hplace⟩ | ⟨i, slot, hfound, hi, -, hplace⟩
  · rw [hplace, habsent]
    exact congrArg (·, true) (push_table habsent fresh)
  · have hsame : rules.set i slot = rules := by
      obtain ⟨hlt, rfl⟩ := List.getElem?_eq_some_iff.mp hi
      exact List.set_getElem_self hlt
    rw [hplace, hfound]
    exact congrArg (table · , false) hsame.symm

end RuleSet

/-! ## Compiling -/

namespace Rule

theorem addSelectors_entry (added : List String) (rule : Rule) :
    rule.entry.addSelectors added = ((Rule.share added rule).1.entry, (Rule.share added rule).2) := by
  cases rule <;> rfl

theorem mergeDeclarations_entry (new : List Declaration) (rule : Rule) :
    rule.entry.mergeDeclarations new = ((Rule.redeclare new rule).1.entry, (Rule.redeclare new rule).2) := by
  cases rule <;> rfl

end Rule

namespace RuleSet

theorem isEmpty_table (rules : RuleSet) : rules.table.isEmpty = rules.isEmpty := by
  cases rules <;> rfl

theorem insertBlock_table (rules : RuleSet) (rule : String) (body : RuleSet) :
    rules.table.insertBlock rule body.table =
      ((rules.insertBlock rule body).1.table, (rules.insertBlock rule body).2) := by
  rw [RuleTable.insertBlock, insertBlock, isEmpty_table, css_table, ← Rule.entry_atRule, pushNew_table]
  split <;> rfl

theorem insertKeyframes_table (rules : RuleSet) (name : String) (frames : List (String × List Declaration)) :
    rules.table.insertKeyframes name frames =
      ((rules.insertKeyframes name frames).1.table, (rules.insertKeyframes name frames).2) :=
  pushNew_table rules (.keyframes name) (.keyframes name frames)

variable {sharing : Sharing}

theorem insertRule_table (rules : RuleSet) (selector : String) (declarations : List Declaration) (unique : Bool) :
    rules.table.insertRule sharing selector declarations unique =
      some (rules.insertRule sharing selector declarations unique).table := by
  rw [RuleTable.insertRule, insertRule]
  split
  · rfl
  · cases sharing with
    | byDeclarations =>
      have hplace := amendOrPush_table (Rule.addSelectors_entry [selector]) rules
        (if unique then .unique selector (Declaration.cssAll (Declaration.sort declarations))
          else .shared (Declaration.cssAll (Declaration.sort declarations)))
        (.style [selector] (Declaration.sort declarations) unique)
      exact congrArg (Option.map Prod.fst) hplace
    | bySelector =>
      have hplace := amendOrPush_table (Rule.mergeDeclarations_entry (Declaration.sort declarations)) rules
        (.literal selector) (.style [selector] (Declaration.sort declarations) false)
      exact congrArg (Option.map Prod.fst) hplace

mutual

theorem insertNode_table : ∀ (node : FlatNode) (rules : RuleSet),
    rules.table.insertNode sharing node = some (rules.insertNode sharing node).table
  | .rule selector declarations unique, rules => insertRule_table rules selector declarations unique
  | .atRule rule children, rules => by
    have hbody : RuleTable.insertNodes sharing {} children = some (insertNodes sharing [] children).table :=
      insertNodes_table children []
    rw [RuleTable.insertNode, hbody, Option.map_some, insertBlock_table]
    rfl

theorem insertNodes_table : ∀ (nodes : List FlatNode) (rules : RuleSet),
    rules.table.insertNodes sharing nodes = some (rules.insertNodes sharing nodes).table
  | [], _ => rfl
  | node :: rest, rules => by
    rw [RuleTable.insertNodes, insertNode_table node rules, Option.bind_some, insertNodes_table rest]
    rfl

end

/-- Compiling flat nodes gives the table of their rule set. -/
theorem ofNodes_table (sharing : Sharing) (nodes : List FlatNode) :
    RuleTable.ofNodes sharing nodes = some (ofNodes sharing nodes).table := insertNodes_table nodes []

/-! ## Merging -/

theorem mergeStyleEntry_table (root : String) (rules : RuleSet) (rule : Rule) :
    RuleTable.mergeStyleEntry root rules.table rule.entry =
      some ((mergeStyleRule root rules rule).1.table, (mergeStyleRule root rules rule).2) := by
  cases rule with
  | style selectors declarations unique =>
    rw [Rule.entry, RuleTable.mergeStyleEntry, mergeStyleRule]
    split
    · exact amendOrPush_table (Rule.addSelectors_entry selectors) rules _ (.style selectors declarations unique)
    · exact congrArg some (pushNew_table rules _ (.style selectors declarations unique))
  | atRule rule body => exact congrArg some (insertBlock_table rules rule body)
  | keyframes name frames => exact congrArg some (insertKeyframes_table rules name frames)

theorem mergeLiteralEntry_table (rules : RuleSet) (rule : Rule) :
    RuleTable.mergeLiteralEntry rules.table rule.entry =
      some ((mergeLiteralRule rules rule).1.table, (mergeLiteralRule rules rule).2) := by
  cases rule with
  | style selectors declarations unique =>
    exact amendOrPush_table (Rule.mergeDeclarations_entry declarations) rules _ (.style selectors declarations unique)
  | atRule rule body => exact congrArg some (insertBlock_table rules rule body)
  | keyframes name frames => exact congrArg some (insertKeyframes_table rules name frames)

theorem mergeAll_table {merge : RuleSet → Rule → RuleSet × Bool}
    {mergeEntry : RuleTable → Entry → Option (RuleTable × Bool)}
    (h : ∀ rules rule, mergeEntry (table rules) rule.entry = some ((merge rules rule).1.table, (merge rules rule).2))
    (rules new : RuleSet) :
    RuleTable.mergeAll mergeEntry rules.table (entriesOf new) =
      some ((mergeAll merge rules new).1.table, (mergeAll merge rules new).2) := by
  induction new generalizing rules with
  | nil => rfl
  | cons slot rest ih =>
    rw [entriesOf, RuleTable.mergeAll, h, Option.bind_some]
    exact congrArg (Option.map _) (ih (merge rules slot.2).1)

theorem mergeStyle_table (rules compiled : RuleSet) (root : String) :
    rules.table.mergeStyle compiled.table root =
      some ((rules.mergeStyle compiled root).1.table, (rules.mergeStyle compiled root).2) :=
  mergeAll_table (mergeStyleEntry_table root) rules compiled

theorem mergeLiteral_table (rules compiled : RuleSet) :
    rules.table.mergeLiteral compiled.table =
      some ((rules.mergeLiteral compiled).1.table, (rules.mergeLiteral compiled).2) :=
  mergeAll_table mergeLiteralEntry_table rules compiled

end RuleSet

end StyleEngine
