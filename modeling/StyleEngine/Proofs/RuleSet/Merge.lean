import StyleEngine.Proofs.RuleSet.Deposit

/-!
# Merging is depositing

Compiling nodes and merging compiled rules both come down to deposits: of the slots that the nodes
stand for, and of the compiled rules under the keys that they have in the registry.
-/

namespace StyleEngine

/-- The key under which a compiled rule is merged, given that of style rules. -/
def Rule.key (styleKey : List String → List Declaration → Bool → RuleKey) : Rule → RuleKey
  | .style selectors declarations unique => styleKey selectors declarations unique
  | .atRule rule body => .atRule rule (RuleSet.css body)
  | .keyframes name _ => .keyframes name

/-- An at-rule around nothing. It is not merged. -/
def Rule.isVoid : Rule → Bool
  | .atRule _ body => body.isEmpty
  | _ => false

namespace RuleKey

/-- Whether a style rule shares its block with the roots of other styles. -/
def sharesRoot (root : String) (selectors : List String) (unique : Bool) : Bool :=
  !unique && selectors.contains root

/-- The key of a rule of the style with the given root. -/
def ofStyle (root : String) (selectors : List String) (declarations : List Declaration)
    (unique : Bool) : RuleKey :=
  if sharesRoot root selectors unique then .shared (Declaration.cssAll declarations)
  else .owned (Selector.joinList selectors) (Declaration.cssAll declarations)

/-- The key of a rule for literal selectors. -/
def ofLiteral (selectors : List String) (_ : List Declaration) (_ : Bool) : RuleKey :=
  .literal (Selector.joinList selectors)

/-- The kinds of key in a rule set that shares by declarations. -/
def OfNode : RuleKey → Prop
  | .shared _ | .unique _ _ | .atRule _ _ => True
  | _ => False

/-- The key of a flat rule inside its own rule set. -/
def ofRule (sharing : Sharing) (selector block : String) (unique : Bool) : RuleKey :=
  match sharing with
  | .byDeclarations => if unique then .unique selector block else .shared block
  | .bySelector => .literal selector

end RuleKey

namespace RuleSet

variable {styleKey : List String → List Declaration → Bool → RuleKey} {sharing : Sharing}

/-- Compiled rules under the keys under which they are merged. -/
def rekey (styleKey : List String → List Declaration → Bool → RuleKey) (compiled : RuleSet) : RuleSet :=
  (compiled.filter fun slot => !slot.2.isVoid).map fun slot => (some (slot.2.key styleKey), slot.2)

theorem mem_rekey {compiled : RuleSet} {x : Option RuleKey × Rule} :
    x ∈ rekey styleKey compiled ↔
      ∃ slot ∈ compiled, slot.2.isVoid = false ∧ (some (slot.2.key styleKey), slot.2) = x := by
  simp [rekey, and_assoc]

theorem mergeAll_eq_depositAll {merge : RuleSet → Rule → RuleSet × Bool}
    (hm : ∀ rules rule, merge rules rule =
      if rule.isVoid then (rules, false) else deposit rules (some (rule.key styleKey), rule))
    (rules compiled : RuleSet) :
    mergeAll merge rules compiled = depositAll rules (rekey styleKey compiled) := by
  induction compiled generalizing rules with
  | nil => rfl
  | cons slot rest ih =>
    rw [mergeAll, hm, rekey, List.filter_cons]
    cases hv : slot.2.isVoid with
    | true =>
      simp only [Bool.not_true, Bool.false_eq_true, if_true, if_false, Bool.false_or, ih]
      rfl
    | false =>
      simp only [Bool.not_false, Bool.false_eq_true, if_true, if_false, ih]
      rfl

theorem mergeStyle_eq_depositAll (rules compiled : RuleSet) (root : String) :
    mergeStyle rules compiled root = depositAll rules (rekey (RuleKey.ofStyle root) compiled) := by
  refine mergeAll_eq_depositAll (fun rules rule => ?_) rules compiled
  cases rule with
  | style selectors declarations unique =>
    have hkey : Rule.key (RuleKey.ofStyle root) (.style selectors declarations unique) =
        RuleKey.ofStyle root selectors declarations unique := rfl
    rw [hkey, RuleKey.ofStyle]
    by_cases hs : RuleKey.sharesRoot root selectors unique = true
    · have hs' : (!unique && selectors.contains root) = true := hs
      simp only [mergeStyleRule, hs, hs', if_true]
      rfl
    · have hs' : ¬ (!unique && selectors.contains root) = true := hs
      simp only [mergeStyleRule, if_neg hs, if_neg hs']
      rfl
  | atRule rule body => rfl
  | keyframes name frames => rfl

theorem mergeLiteral_eq_depositAll (rules compiled : RuleSet) :
    mergeLiteral rules compiled = depositAll rules (rekey RuleKey.ofLiteral compiled) := by
  refine mergeAll_eq_depositAll (fun rules rule => ?_) rules compiled
  cases rule <;> rfl

/-- The slot that a flat node stands for. Nodes without declarations stand for none. -/
def slotOf? (sharing : Sharing) : FlatNode → Option (Option RuleKey × Rule)
  | .rule selector declarations unique =>
    if declarations.isEmpty then none
    else
      let declarations := Declaration.sort declarations
      some (some (RuleKey.ofRule sharing selector (Declaration.cssAll declarations) unique),
        .style [selector] declarations (unique && sharing = .byDeclarations))
  | .atRule rule children =>
    let body := ofNodes sharing children
    if body.isEmpty then none else some (some (.atRule rule body.css), .atRule rule body)

/-- The slot of a node with declarations, or with a body that has rules. -/
inductive SlotOf (sharing : Sharing) : FlatNode → Option RuleKey × Rule → Prop
  | rule (selector : String) {declarations : List Declaration} (unique : Bool) (hne : declarations ≠ []) :
      SlotOf sharing (.rule selector declarations unique)
        (some (RuleKey.ofRule sharing selector (Declaration.cssAll (Declaration.sort declarations)) unique),
          .style [selector] (Declaration.sort declarations) (unique && sharing = .byDeclarations))
  | atRule (rule : String) {children : List FlatNode} (hne : ofNodes sharing children ≠ []) :
      SlotOf sharing (.atRule rule children)
        (some (.atRule rule (css (ofNodes sharing children))), .atRule rule (ofNodes sharing children))

theorem slotOf_of_some {node : FlatNode} {slot : Option RuleKey × Rule} (h : slotOf? sharing node = some slot) :
    SlotOf sharing node slot := by
  cases node with
  | rule selector declarations unique =>
    rw [slotOf?] at h
    split at h
    · cases h
    · next hne =>
      obtain rfl := Option.some.inj h
      exact .rule selector unique (by simpa using hne)
  | atRule rule children =>
    simp only [slotOf?] at h
    split at h
    · cases h
    · next hne =>
      obtain rfl := Option.some.inj h
      exact .atRule rule (by simpa using hne)

theorem insertNodes_eq_depositAll (rules : RuleSet) (nodes : List FlatNode) :
    insertNodes sharing rules nodes = (depositAll rules (nodes.filterMap (slotOf? sharing))).1 := by
  induction nodes generalizing rules with
  | nil => rfl
  | cons node rest ih =>
    have hnode : insertNode sharing rules node =
        (depositAll rules (slotOf? sharing node).toList).1 := by
      cases node with
      | rule selector declarations unique =>
        rw [insertNode, insertRule, slotOf?]
        split
        · rfl
        · cases sharing with
          | byDeclarations => cases unique <;> rfl
          | bySelector => cases unique <;> rfl
      | atRule rule children =>
        rw [insertNode, insertBlock, slotOf?, ofNodes]
        split <;> rfl
    rw [insertNodes, ih, hnode, ← depositAll_append, List.filterMap_cons]
    cases slotOf? sharing node <;> rfl

theorem ofNodes_eq_depositAll (nodes : List FlatNode) :
    ofNodes sharing nodes = (depositAll [] (nodes.filterMap (slotOf? sharing))).1 :=
  insertNodes_eq_depositAll [] nodes

theorem fits_slotOf? {node : FlatNode} {slot : Option RuleKey × Rule}
    (h : slotOf? sharing node = some slot) : Fits slot := by
  cases slotOf_of_some h with
  | atRule => exact ⟨rfl, rfl⟩
  | rule selector unique =>
    cases sharing with
    | byDeclarations => cases unique <;> exact ⟨rfl, rfl⟩
    | bySelector => trivial

theorem fits_ofNodes {nodes : List FlatNode} : ∀ slot ∈ ofNodes sharing nodes, Fits slot := by
  rw [ofNodes_eq_depositAll]
  refine fits_depositAll (fun _ h => absurd h List.not_mem_nil) fun x hx => ?_
  obtain ⟨node, -, hn⟩ := List.mem_filterMap.mp hx
  exact fits_slotOf? hn

theorem fits_ofStyle (root : String) (rule : Rule) :
    Fits (some (rule.key (RuleKey.ofStyle root)), rule) := by
  cases rule with
  | style selectors declarations unique =>
    simp only [Rule.key, RuleKey.ofStyle]
    split
    · next hs =>
      have hu : unique = false := by cases unique <;> simp_all [RuleKey.sharesRoot]
      exact ⟨hu, rfl⟩
    · exact ⟨rfl, rfl⟩
  | atRule rule body => exact ⟨rfl, rfl⟩
  | keyframes name frames => rfl

theorem fits_ofLiteral (rule : Rule) : Fits (some (rule.key RuleKey.ofLiteral), rule) := by
  cases rule with
  | style selectors declarations unique => trivial
  | atRule rule body => exact ⟨rfl, rfl⟩
  | keyframes name frames => rfl

/-- Only a root rule that is not unique is merged under a shared block. -/
theorem style_of_key_shared {root block : String} {rule : Rule}
    (h : rule.key (RuleKey.ofStyle root) = .shared block) :
    ∃ selectors declarations, rule = .style selectors declarations false ∧ root ∈ selectors ∧
      Declaration.cssAll declarations = block := by
  cases rule with
  | atRule | keyframes => cases h
  | style selectors declarations unique =>
    rw [Rule.key, RuleKey.ofStyle] at h
    split at h
    · next hs =>
      have hu : unique = false ∧ root ∈ selectors := by
        simpa [RuleKey.sharesRoot, List.contains_iff_mem] using hs
      obtain ⟨rfl, hroot⟩ := hu
      exact ⟨selectors, declarations, rfl, hroot, RuleKey.shared.inj h⟩
    · cases h

theorem gathers_ofStyle {root : String} {rule : Rule} (h : (rule.key (RuleKey.ofStyle root)).Gathers) :
    ∃ block, rule.key (RuleKey.ofStyle root) = .shared block := by
  cases rule with
  | atRule | keyframes => exact absurd h id
  | style selectors declarations unique =>
    simp only [Rule.key, RuleKey.ofStyle] at h ⊢
    split at h
    · next hs => exact ⟨_, if_pos hs⟩
    · exact absurd h id

theorem ofStyle_ne_literal {root : String} (rule : Rule) (literal : String) :
    rule.key (RuleKey.ofStyle root) ≠ .literal literal := by
  cases rule with
  | atRule | keyframes => exact fun h => nomatch h
  | style selectors declarations unique =>
    simp only [Rule.key, RuleKey.ofStyle]
    split <;> exact fun h => nomatch h

theorem key_of_shares {root : String} {selectors : List String} (h : root ∈ selectors)
    (declarations : List Declaration) :
    (Rule.style selectors declarations false).key (RuleKey.ofStyle root) =
      .shared (Declaration.cssAll declarations) := by
  have hs : RuleKey.sharesRoot root selectors false = true := by
    simpa [RuleKey.sharesRoot, List.contains_iff_mem] using h
  rw [Rule.key, RuleKey.ofStyle, if_pos hs]

/-! ## Facts about all slots -/

/-- What holds of stored and deposited slots and survives the revision of a slot under the key that it
holds is true afterwards. -/
theorem depositAll_induction_of_holds {P : Option RuleKey × Rule → Prop}
    (hrev : ∀ (key : RuleKey) (rule : Rule) (slot : Option RuleKey × Rule), holds key slot = true →
      P (some key, rule) → P slot → P (slot.1, (key.revise rule slot.2).1))
    {rules : RuleSet} {xs : List (Option RuleKey × Rule)} (hr : ∀ s ∈ rules, P s) (hx : ∀ x ∈ xs, P x) :
    ∀ s ∈ (depositAll rules xs).1, P s := by
  induction xs generalizing rules with
  | nil => exact hr
  | cons x rest ih =>
    have hdep : ∀ s ∈ (deposit rules x).1, P s := by
      have hpx : P x := hx x List.mem_cons_self
      obtain ⟨key?, rule⟩ := x
      intro s hs
      cases key? with
      | none =>
        rcases List.mem_append.mp hs with hs | hs
        · exact hr s hs
        · rw [List.mem_singleton.mp hs]; exact hpx
      | some key =>
        rw [deposit] at hs
        rcases absent_or_present rules key with ha | ⟨before, slot, after, rfl, hb, hh⟩
        · rw [place_of_absent ha] at hs
          rcases List.mem_append.mp hs with hs | hs
          · exact hr s hs
          · rw [List.mem_singleton.mp hs]; exact hpx
        · rw [place_of_present hb hh] at hs
          rcases List.mem_append.mp hs with hs | hs
          · exact hr s (List.mem_append_left _ hs)
          · rcases List.mem_cons.mp hs with rfl | hs
            · have hslot : P slot := hr slot (List.mem_append_right _ List.mem_cons_self)
              exact hrev key rule slot hh hpx hslot
            · exact hr s (List.mem_append_right _ (List.mem_cons_of_mem _ hs))
    exact ih hdep fun y hy => hx y (List.mem_cons_of_mem _ hy)

/-- What holds of stored and deposited slots and survives every revision is true afterwards. -/
theorem depositAll_induction {P : Option RuleKey × Rule → Prop}
    (hrev : ∀ (key : RuleKey) (rule : Rule) (slot : Option RuleKey × Rule), P (some key, rule) → P slot →
      P (slot.1, (key.revise rule slot.2).1))
    {rules : RuleSet} {xs : List (Option RuleKey × Rule)} (hr : ∀ s ∈ rules, P s) (hx : ∀ x ∈ xs, P x) :
    ∀ s ∈ (depositAll rules xs).1, P s :=
  depositAll_induction_of_holds (fun key rule slot _ => hrev key rule slot) hr hx

/-- What the slots of nodes have, and every revision keeps, is true of the rule set of the nodes. -/
theorem ofNodes_induction {P : Option RuleKey × Rule → Prop}
    (hrev : ∀ (key : RuleKey) (rule : Rule) (slot : Option RuleKey × Rule), holds key slot = true →
      P (some key, rule) → P slot → P (slot.1, (key.revise rule slot.2).1))
    {nodes : List FlatNode} (hslot : ∀ node ∈ nodes, ∀ slot, slotOf? sharing node = some slot → P slot) :
    ∀ slot ∈ ofNodes sharing nodes, P slot := by
  rw [ofNodes_eq_depositAll]
  refine depositAll_induction_of_holds hrev (fun _ hm => absurd hm List.not_mem_nil) fun x hx => ?_
  obtain ⟨node, hnode, hx⟩ := List.mem_filterMap.mp hx
  exact hslot node hnode x hx

theorem keyTexts_nodup_ofNodes (nodes : List FlatNode) : (keyTexts (ofNodes sharing nodes)).Nodup := by
  rw [ofNodes_eq_depositAll]
  exact keyTexts_nodup_depositAll List.nodup_nil

theorem key_of_slotOf? {node : FlatNode} {slot : Option RuleKey × Rule}
    (h : slotOf? .byDeclarations node = some slot) : ∃ key, slot.1 = some key ∧ key.OfNode := by
  cases slotOf_of_some h with
  | rule selector unique => cases unique <;> exact ⟨_, rfl, trivial⟩
  | atRule => exact ⟨_, rfl, trivial⟩

theorem key_of_ofNodes {nodes : List FlatNode} :
    ∀ slot ∈ ofNodes .byDeclarations nodes, ∃ key, slot.1 = some key ∧ key.OfNode :=
  ofNodes_induction (P := fun slot => ∃ key, slot.1 = some key ∧ key.OfNode)
    (fun _ _ _ _ _ hslot => hslot) fun _ _ _ hslot => key_of_slotOf? hslot

/-- In a rule set that shares by declarations, a rule that is not unique stands under its block. -/
theorem key_of_mem_ofNodes {nodes : List FlatNode} {key? : Option RuleKey} {selectors : List String}
    {declarations : List Declaration}
    (h : (key?, .style selectors declarations false) ∈ ofNodes .byDeclarations nodes) :
    key? = some (.shared (Declaration.cssAll declarations)) := by
  have hfits := fits_ofNodes _ h
  obtain ⟨key, rfl, hk⟩ := key_of_ofNodes _ h
  cases key with
  | shared block => rw [← hfits.2]
  | unique => exact absurd hfits.1 (by decide)
  | atRule => exact absurd hfits id
  | owned | literal | keyframes => exact absurd hk id

end RuleSet

end StyleEngine
