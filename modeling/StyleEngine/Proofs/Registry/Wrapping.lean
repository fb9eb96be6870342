import StyleEngine.Proofs.Registry.Literal
import StyleEngine.Proofs.Selector.Parts

/-!
# Selectors inside at-rules, and at-rules inside selectors

A description can be registered for a selector inside a literal at-rule in two ways: the selector is nested in
the at-rule, or the at-rule in the selector. The first is flattened without a parent, the second against the
selector. Both put the same nodes into the at-rule, since a selector without `&` stands for itself where there is
no parent (`orphanSelector_of_plain`), and what they put beside it declares nothing. So they compile to the same
block (`ofNodes_wrap`) and are one registration (`at_rule_inside_or_outside`).
-/

namespace StyleEngine

variable {rule selector : String}

/-- A text without `&` and without blanks at its ends is its own selector below a literal at-rule. -/
theorem NormalStyle.orphanSelector_of_plain (hparent : '&' ∉ selector.toList)
    (hfirst : ∀ c ∈ selector.toList.head?, Text.isBlank c = false)
    (hlast : ∀ c ∈ selector.toList.getLast?, Text.isBlank c = false) : orphanSelector selector = selector := by
  have htrim : Text.trimChars selector.toList = selector.toList := by
    cases hs : selector.toList with
    | nil => exact Text.trimChars_nil
    | cons c rest =>
      rw [hs] at hfirst hlast
      have hend := (List.dropLast_concat_getLast (List.cons_ne_nil c rest)).symm
      exact Text.trimChars_of_ends ⟨c, rest, rfl, hfirst c rfl⟩
        ⟨_, _, hend, hlast _ (List.getLast?_eq_some_getLast (List.cons_ne_nil c rest))⟩
  rw [orphanSelector, ← String.toList_inj, Text.toList_trim, Selector.toList_substitute,
    Selector.fill_of_not_mem hparent, htrim]

/-- A level that only nests adds a level around the normal style, or fails as what it nests fails one level down. -/
theorem Description.normalize_wrap (d : Description) (selector : String) (debug : Bool) :
    (d.wrap selector).normalize debug = (d.normalizeAt debug 1).map fun style => { nested := [(selector, style)] } := by
  have hnested : normalizeAll debug 1 [(selector, d)] =
      (d.normalizeAt debug 1).map fun style => [(selector, style)] := by
    rw [normalizeAll]
    cases d.normalizeAt debug 1 <;> rfl
  show normalizeAt debug 0 ⟨[], [(selector, d)], none, none, none⟩ = _
  rw [normalizeAt, if_neg (by decide), hnested]
  cases d.normalizeAt debug 1 with
  | error e => rfl
  | ok style => cases debug <;> rfl

namespace Registry

/-- One block is compiled either way. -/
theorem ofNodes_wrap (hrule : Selector.isAtRule rule = true) (hselector : Selector.isAtRule selector = false)
    (horphan : NormalStyle.orphanSelector selector = selector) (style : NormalStyle) :
    RuleSet.ofNodes .bySelector (literalNodes rule { nested := [(selector, style)] }) =
      RuleSet.ofNodes .bySelector (literalNodes selector { nested := [(rule, style)] }) := by
  have houtside : literalNodes rule { nested := [(selector, style)] } =
      [.atRule rule (.rule "" [] false :: style.flatten selector)] := by
    simp [literalNodes, hrule, NormalStyle.flattenAtRule, NormalStyle.body, NormalStyle.bodyNested, hselector, horphan]
  have hinside : literalNodes selector { nested := [(rule, style)] } =
      [.rule selector [] false, .atRule rule (style.flatten selector)] := by
    simp [literalNodes, hselector, NormalStyle.flatten, NormalStyle.flattenNested, hrule]
  -- the rules without declarations, one inside the block and one in front of it, are dropped
  rw [houtside, hinside]
  simp only [RuleSet.ofNodes, RuleSet.insertNodes, RuleSet.insertNode, RuleSet.insertRule, List.isEmpty_nil, if_true]

/-- Registering a selector inside an at-rule and the at-rule inside the selector is the same registration: both
fail with the same error, or both leave the same rules, text and version. After one of them the other changes
nothing. -/
theorem at_rule_inside_or_outside (hrule : Selector.isAtRule rule = true)
    (hselector : Selector.isAtRule selector = false) (hparent : '&' ∉ selector.toList)
    (hfirst : ∀ c ∈ selector.toList.head?, Text.isBlank c = false)
    (hlast : ∀ c ∈ selector.toList.getLast?, Text.isBlank c = false) (d : Description) (r : Registry) :
    let outside := Registration.rule rule (d.wrap selector)
    let inside := Registration.rule selector (d.wrap rule)
    r.apply outside = r.apply inside ∧ r.step outside = r.step inside ∧
      (r.step outside).step inside = r.step outside ∧ (r.step inside).step outside = r.step inside := by
  intro outside inside
  have horphan := NormalStyle.orphanSelector_of_plain hparent hfirst hlast
  have happly : ∀ r : Registry, r.apply outside = r.apply inside := by
    intro r
    show r.registerRule rule (d.wrap selector) = r.registerRule selector (d.wrap rule)
    rw [registerRule_eq, registerRule_eq, Description.normalize_wrap, Description.normalize_wrap]
    cases d.normalizeAt false 1 with
    | error e => rfl
    | ok style =>
      show Except.ok (r.update (r.rules.mergeLiteral _)) = .ok (r.update (r.rules.mergeLiteral _))
      rw [ofNodes_wrap hrule hselector horphan]
  have hstep : ∀ r : Registry, r.step outside = r.step inside := fun r => by rw [step, step, happly]
  have hagain : (r.step outside).step outside = r.step outside := step_rule_step r rule (d.wrap selector)
  refine ⟨happly r, hstep r, ?_, ?_⟩
  · rw [← hstep, hagain]
  · rw [← hstep, hagain]

/-- A description with a selector list, an at-rule, a priority and a parent of its own. -/
def panel : Description :=
  ((((Description.set {} "color" (.text "red")).withPriority 1).wrap "@supports (display: grid)").wrap "&:hover, i").set
    "margin" (.text "0")

theorem at_rule_inside_or_outside_panel :
    let outside := Registration.rule "@media print" (panel.wrap "body, p")
    let inside := Registration.rule "body, p" (panel.wrap "@media print")
    let r := run {} [.rule "body, p" panel]
    r.apply outside = r.apply inside ∧ r.step outside = r.step inside ∧
      (r.step outside).step inside = r.step outside ∧ (r.step inside).step outside = r.step inside ∧
      (r.step outside).version = 2 := by
  have hrule : Selector.isAtRule "@media print" = true := by decide
  have hselector : Selector.isAtRule "body, p" = false := by decide
  have hfirst : ∀ c ∈ "body, p".toList.head?, Text.isBlank c = false := by
    rintro c ⟨⟩
    rfl
  have hlast : ∀ c ∈ "body, p".toList.getLast?, Text.isBlank c = false := by
    rintro c ⟨⟩
    rfl
  have h := at_rule_inside_or_outside hrule hselector (by decide) hfirst hlast panel (run {} [.rule "body, p" panel])
  exact ⟨h.1, h.2.1, h.2.2.1, h.2.2.2, by decide +kernel⟩

end Registry

end StyleEngine
