import StyleEngine.Proofs.RuleSet.Content

/-!
# Unique rules stand alone

A rule that is marked unique lists one selector, and so does every marked rule in the body of an at-rule
(`Rule.Solitary`). Inside the rule set of a style the mark puts the selector into the key, so no rule
for another selector comes under that key (`RuleSet.Lone`). Separators in a text could make two keys look
alike, which is why the nodes are without them. By selector nothing is marked.
-/

namespace StyleEngine

/-- Marked rules list one selector, at every depth. -/
inductive Rule.Solitary : Rule → Prop
  | unique (selector : String) (declarations : List Declaration) :
      Solitary (.style [selector] declarations true)
  | unmarked (selectors : List String) (declarations : List Declaration) :
      Solitary (.style selectors declarations false)
  | atRule (rule : String) {body : List (Option RuleKey × Rule)} (hb : ∀ slot ∈ body, Solitary slot.2) :
      Solitary (.atRule rule body)
  | keyframes (name : String) (frames : List (String × List Declaration)) : Solitary (.keyframes name frames)

namespace RuleSet

variable {sharing : Sharing} {slot : Option RuleKey × Rule} {S A : String → Prop} {D : Declaration → Prop}

/-- What is stored in the rule set of a style: a marked rule under a clean key with its selector, a rule
without the mark under another kind of key, or an at-rule around such slots. -/
inductive Lone : Option RuleKey × Rule → Prop
  | unique {selector block : String} (hc : (RuleKey.unique selector block).Clean)
      (declarations : List Declaration) :
      Lone (some (.unique selector block), .style [selector] declarations true)
  | unmarked {key : RuleKey} (hk : ∀ selector block, key ≠ .unique selector block)
      (selectors : List String) (declarations : List Declaration) :
      Lone (some key, .style selectors declarations false)
  | atRule (key : RuleKey) (rule : String) {body : List (Option RuleKey × Rule)}
      (hb : ∀ slot ∈ body, Lone slot) : Lone (some key, .atRule rule body)

theorem Lone.solitary (h : Lone slot) : slot.2.Solitary := by
  induction h with
  | @unique selector block hc declarations => exact .unique selector declarations
  | unmarked hk selectors declarations => exact .unmarked selectors declarations
  | atRule key rule hb ih => exact .atRule rule ih

/-- Under the key of a marked rule stands that rule alone. -/
theorem Lone.selectors_of_unique {selector block : String} {selectors : List String}
    {declarations : List Declaration} {unique : Bool}
    (h : Lone (some (.unique selector block), .style selectors declarations unique)) :
    selectors = [selector] ∧ unique = true := by
  cases h with
  | unique => exact ⟨rfl, rfl⟩
  | unmarked hk => exact absurd rfl (hk selector block)

/-- A rule that comes under a key leaves a marked rule there as it is, since it lists the same selector. -/
theorem Lone.revise {key : RuleKey} {rule : Rule} (hs : holds key slot = true) (hr : Lone (some key, rule))
    (h : Lone slot) : Lone (slot.1, (key.revise rule slot.2).1) := by
  obtain ⟨k, hk, ht⟩ := exists_key_of_holds hs
  cases hr with
  | atRule => cases key <;> exact h
  | @unique selector block hc =>
    obtain rfl := RuleKey.eq_of_text hc ht
    obtain ⟨key?, stored⟩ := slot
    obtain rfl : key? = some (.unique selector block) := hk
    cases stored with
    | atRule | keyframes => exact h
    | style selectors declarations unique =>
      obtain ⟨rfl, rfl⟩ := h.selectors_of_unique
      rw [RuleKey.revise, Rule.share, Rule.addSelectors_of_subset fun _ hm => hm]
      exact h
  | unmarked hne selectors declarations =>
    cases key with
    | unique selector block => exact absurd rfl (hne selector block)
    | owned | atRule | keyframes => exact h
    | shared block =>
      obtain rfl := RuleKey.eq_of_text_shared ht
      cases h with
      | atRule key r hb => exact .atRule key r hb
      | unmarked hk' old ds => exact .unmarked hk' _ ds
      | unique => cases hk
    | literal s =>
      obtain rfl := RuleKey.eq_of_text_literal ht
      cases h with
      | atRule key r hb => exact .atRule key r hb
      | unmarked hk' old ds => exact .unmarked hk' old _
      | unique => cases hk

/-- The key of a marked flat rule is clean when the texts of the node are. -/
theorem clean_unique {selector : String} {declarations : List Declaration} (hs : AllChars Unseparated selector)
    (hd : ∀ d ∈ declarations, d.Texts Unseparated) :
    (RuleKey.unique selector (Declaration.cssAll (Declaration.sort declarations))).Clean :=
  ⟨hs, Declaration.allChars_cssAll marks_unseparated.2.1 marks_unseparated.2.2.1 fun d hm =>
    hd d ((Declaration.sort_perm declarations).mem_iff.mp hm)⟩

/-- Marks count by declarations only, and there the nodes have no separators. -/
theorem lone_slotOf? {node : FlatNode} (h : node.All S D A)
    (hclean : sharing = .byDeclarations →
      (∀ s, S s → AllChars Unseparated s) ∧ ∀ d, D d → d.Texts Unseparated)
    (hslot : slotOf? sharing node = some slot) : Lone slot := by
  induction h generalizing slot with
  | @rule selector declarations unique hs hd =>
    cases slotOf_of_some hslot
    cases sharing with
    | bySelector =>
      simp only [reduceCtorEq, decide_false, Bool.and_false]
      exact .unmarked (fun _ _ he => by cases he) _ _
    | byDeclarations =>
      obtain ⟨hS, hD⟩ := hclean rfl
      cases unique with
      | false => exact .unmarked (fun _ _ he => by cases he) _ _
      | true => exact .unique (clean_unique (hS selector hs) fun d hm => hD d (hd d hm)) _
  | @atRule rule children _ _ ih =>
    cases slotOf_of_some hslot
    refine .atRule _ rule (ofNodes_induction (fun _ _ _ hh hrule h => hrule.revise hh h) ?_)
    exact fun child hc _ hchild => ih child hc hchild

theorem lone_ofNodes {nodes : List FlatNode} (h : ∀ node ∈ nodes, node.All S D A)
    (hclean : sharing = .byDeclarations →
      (∀ s, S s → AllChars Unseparated s) ∧ ∀ d, D d → d.Texts Unseparated) :
    ∀ slot ∈ ofNodes sharing nodes, Lone slot :=
  ofNodes_induction (fun _ _ _ hs hrule hslot => hrule.revise hs hslot)
    fun node hn _ hslot => lone_slotOf? (h node hn) hclean hslot

/-- A marked rule with declarations has a rule of its own in the rule set of its nodes. -/
theorem exists_unique_of_mem {nodes : List FlatNode} {selector : String} {declarations : List Declaration}
    (hnodes : ∀ node ∈ nodes, node.All (AllChars Unseparated) (Declaration.Texts Unseparated) A)
    (hrule : .rule selector declarations true ∈ nodes) (hne : declarations ≠ []) :
    ∃ key? own, (key?, .style [selector] own true) ∈ ofNodes .byDeclarations nodes ∧
      Declaration.cssAll own = Declaration.cssAll (Declaration.sort declarations) := by
  have hlone : ∀ slot ∈ ofNodes .byDeclarations nodes, Lone slot :=
    lone_ofNodes hnodes fun _ => ⟨fun _ hs => hs, fun _ hd => hd⟩
  have hclean : (RuleKey.unique selector (Declaration.cssAll (Declaration.sort declarations))).Clean := by
    cases hnodes _ hrule with
    | rule hs hd => exact clean_unique hs hd
  generalize hblock : Declaration.cssAll (Declaration.sort declarations) = block at hclean ⊢
  have hslot : (some (.unique selector block), .style [selector] (Declaration.sort declarations) true) ∈
      nodes.filterMap (slotOf? .byDeclarations) := by
    refine List.mem_filterMap.mpr ⟨_, hrule, ?_⟩
    rw [slotOf?, if_neg (by simpa using hne), ← hblock]
    rfl
  obtain ⟨stored, hstored⟩ : ∃ stored, (some (.unique selector block), stored) ∈
      ofNodes .byDeclarations nodes := by
    rw [ofNodes_eq_depositAll]
    exact exists_key_depositAll hslot fun k hk => RuleKey.eq_of_text hclean hk
  have hfits := fits_ofNodes _ hstored
  cases stored with
  | atRule | keyframes => exact absurd hfits id
  | style selectors own unique =>
    obtain ⟨rfl, rfl⟩ := (hlone _ hstored).selectors_of_unique
    exact ⟨_, own, hstored, hfits.2⟩

/-! ## Under the keys of a registry -/

/-- Away from the keys of marked rules only rules without the mark gather selectors. -/
theorem Evolves.solitary {a b : Option RuleKey × Rule} (h : Evolves a b) (hf : Fits a)
    (hk : ∀ selector block, a.1 ≠ some (.unique selector block)) (ha : a.2.Solitary) : b.2.Solitary := by
  cases h with
  | same => exact ha
  | @gather key hg selectors extra declarations unique =>
    cases key with
    | unique selector block => exact absurd rfl (hk selector block)
    | shared block =>
      obtain ⟨rfl, -⟩ := hf
      exact .unmarked _ declarations
    | owned | literal | atRule | keyframes => exact absurd hg id
  | redeclare literal selectors old new unique =>
    cases ha with
    | unique selector => exact .unique selector new
    | unmarked => exact .unmarked selectors new

end RuleSet

end StyleEngine
