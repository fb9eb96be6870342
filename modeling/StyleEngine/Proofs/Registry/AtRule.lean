import StyleEngine.Proofs.Registry.Literal

/-!
# The last writer inside an at-rule

A literal at-rule is stored as one block, behind all others, unless a block with its text is stored
already. So the last registration that declares a property somewhere inside an at-rule is the one that
shows there when its block is new, and an older value stays when the block returns
(`last_at_rule_wins_iff`, `red_returns_unseen`).
-/

namespace StyleEngine

/-- A place for declarations: under a selector, inside at-rules with the outermost first. -/
structure Place where
  path : List String
  selector : String

mutual

/-- The declarations at a place in a rule that stands inside the at-rules of `path`. -/
def Rule.blocksAt (place : Place) (path : List String) : Rule → List (List Declaration)
  | .style selectors declarations _ =>
    if path = place.path ∧ place.selector ∈ selectors then [declarations] else []
  | .atRule rule body => blocksFrom place (path ++ [rule]) body
  | .keyframes _ _ => []

def blocksFrom (place : Place) (path : List String) : List (Option RuleKey × Rule) → List (List Declaration)
  | [] => []
  | (_, rule) :: rest => rule.blocksAt place path ++ blocksFrom place path rest

end

namespace RuleSet

/-- The declarations of a property in the last block at the place that has any, as the rules are
written. -/
def shown (place : Place) (p : String) (rules : RuleSet) : List Declaration :=
  Declaration.lastGroup p (blocksFrom place [] rules)

variable {place : Place} {p : String}

theorem blocksFrom_append (path : List String) (first second : RuleSet) :
    blocksFrom place path (first ++ second) = blocksFrom place path first ++ blocksFrom place path second := by
  induction first with
  | nil =>
    rw [blocksFrom]
    rfl
  | cons slot rest ih => rw [List.cons_append, blocksFrom, blocksFrom, ih, List.append_assoc]

theorem shown_append (first second : RuleSet) :
    shown place p (first ++ second) =
      if shown place p second = [] then shown place p first else shown place p second := by
  rw [shown, shown, shown, blocksFrom_append, Declaration.lastGroup_append]

end RuleSet

/-- A literal rule whose selector is an at-rule. -/
def Registration.IsAtRule : Registration → Prop
  | .rule selector _ => Selector.isAtRule selector = true
  | _ => False

namespace Registry

variable {place : Place} {p : String} {x : Registration}

/-- An at-rule comes as one block, or as nothing. -/
theorem arrivals_of_isAtRule (hx : x.IsAtRule) :
    x.arrivals = [] ∨ ∃ rule text body, x.arrivals = [(some (.atRule rule text), .atRule rule body)] := by
  cases x with
  | style | faces | keyframes => exact absurd hx id
  | rule selector d =>
    have hat : Selector.isAtRule selector = true := hx
    rw [Registration.arrivals]
    cases d.normalize false with
    | error e => exact .inl rfl
    | ok style =>
      have hnodes : literalNodes selector style = [.atRule selector style.body] := if_pos hat
      simp only [hnodes, List.filterMap_cons, List.filterMap_nil, RuleSet.slotOf?]
      by_cases hbody : (RuleSet.ofNodes .bySelector style.body).isEmpty = true
      · rw [if_pos hbody]
        exact .inl rfl
      · rw [if_neg hbody]
        exact .inr ⟨_, _, _, rfl⟩

/-- The rules of a registration on its own. -/
def alone (x : Registration) : RuleSet := (run {} [x]).rules

theorem alone_of_isAtRule (hx : x.IsAtRule) : alone x = x.arrivals := by
  have hrun : alone x = (RuleSet.depositAll [] x.arrivals).1 := rules_step_arrivals {} x
  rw [hrun]
  obtain h | ⟨rule, text, body, h⟩ := arrivals_of_isAtRule hx
  · rw [h]
    rfl
  · rw [h]
    rfl

/-- An at-rule is appended unless its key is there. -/
theorem rules_step_of_isAtRule (hx : x.IsAtRule) (r : Registry) :
    (r.step x).rules = r.rules ++ (alone x).filter (RuleSet.isNew r.rules) := by
  rw [rules_step_arrivals, alone_of_isAtRule hx]
  obtain h | ⟨rule, text, body, h⟩ := arrivals_of_isAtRule hx
  · rw [h]
    exact (List.append_nil _).symm
  · rw [h]
    show (RuleSet.deposit r.rules (some (.atRule rule text), .atRule rule body)).1 = _
    cases hany : r.rules.any (RuleSet.holds (.atRule rule text)) with
    | true =>
      have habs : RuleSet.Absorbs r.rules (some (.atRule rule text), .atRule rule body) :=
        RuleSet.absorbs_of_present id (fun _ he => by cases he) (List.any_eq_true.mp hany)
      rw [habs, List.filter_cons_of_neg (by simp [RuleSet.isNew, hany])]
      exact (List.append_nil _).symm
    | false =>
      have habsent : ∀ slot ∈ r.rules, RuleSet.holds (.atRule rule text) slot = false := fun slot hm =>
        Bool.eq_false_iff.mpr fun hh => by
          rw [List.any_eq_true.mpr ⟨slot, hm, hh⟩] at hany
          cases hany
      rw [RuleSet.deposit, RuleSet.place_of_absent habsent,
        List.filter_cons_of_pos (by simp [RuleSet.isNew, hany])]
      rfl

/-- Whether all that the registration brings on its own is new. -/
def Fresh (base : RuleSet) (x : Registration) : Prop := ∀ slot ∈ alone x, RuleSet.isNew base slot = true

instance (base : RuleSet) (x : Registration) : Decidable (Fresh base x) :=
  inferInstanceAs (Decidable (∀ slot ∈ alone x, _))

theorem rules_step_of_fresh (hx : x.IsAtRule) {r : Registry} (h : Fresh r.rules x) :
    (r.step x).rules = r.rules ++ alone x := by
  rw [rules_step_of_isAtRule hx, List.filter_eq_self.mpr h]

/-- A block that is stored already changes nothing. -/
theorem rules_step_of_not_fresh (hx : x.IsAtRule) {r : Registry} (h : ¬ Fresh r.rules x) :
    (r.step x).rules = r.rules := by
  rw [rules_step_of_isAtRule hx]
  rw [Fresh, alone_of_isAtRule hx] at h
  rw [alone_of_isAtRule hx]
  obtain he | ⟨rule, text, body, he⟩ := arrivals_of_isAtRule hx
  · rw [he]
    exact List.append_nil _
  · rw [he] at h ⊢
    have hold : ¬ RuleSet.isNew r.rules (some (.atRule rule text), .atRule rule body) = true := fun hnew =>
      h fun slot hm => List.mem_singleton.mp hm ▸ hnew
    rw [List.filter_cons_of_neg hold]
    exact List.append_nil _

/-- At-rules that show nothing at a place leave what is shown there. -/
theorem shown_run_of_none {after : List Registration}
    (h : ∀ y ∈ after, y.IsAtRule ∧ RuleSet.shown place p (alone y) = []) (r : Registry) :
    RuleSet.shown place p (r.run after).rules = RuleSet.shown place p r.rules := by
  induction after generalizing r with
  | nil => rfl
  | cons y rest ih =>
    obtain ⟨hy, hnone⟩ := h y List.mem_cons_self
    have hstep : RuleSet.shown place p (r.step y).rules = RuleSet.shown place p r.rules := by
      by_cases hfresh : Fresh r.rules y
      · rw [rules_step_of_fresh hy hfresh, RuleSet.shown_append, if_pos hnone]
      · rw [rules_step_of_not_fresh hy hfresh]
    have hrun : r.run (y :: rest) = (r.step y).run rest := rfl
    rw [hrun, ih (fun z hz => h z (List.mem_cons_of_mem _ hz)), hstep]

/-- Let `x` be the last at-rule of a run that declares a property at a place. What it declares is
shown there in the end if its block is new. If it is not, the older declarations stay; so `x` wins
exactly when its block is new or its declarations were shown before. -/
theorem last_at_rule_wins_iff (before : List Registration) {after : List Registration} (hx : x.IsAtRule)
    (hgiven : RuleSet.shown place p (alone x) ≠ [])
    (hafter : ∀ y ∈ after, y.IsAtRule ∧ RuleSet.shown place p (alone y) = []) :
    let base := (run {} before).rules
    let last := RuleSet.shown place p (run {} (before ++ x :: after)).rules
    last = (if Fresh base x then RuleSet.shown place p (alone x) else RuleSet.shown place p base) ∧
      (last = RuleSet.shown place p (alone x) ↔
        Fresh base x ∨ RuleSet.shown place p base = RuleSet.shown place p (alone x)) := by
  intro base last
  have hlast : last = if Fresh base x then RuleSet.shown place p (alone x) else RuleSet.shown place p base := by
    have hrun : run {} (before ++ x :: after) = ((run {} before).step x).run after := run_append ..
    show RuleSet.shown place p (run {} (before ++ x :: after)).rules = _
    rw [hrun, shown_run_of_none hafter]
    by_cases hfresh : Fresh base x
    · rw [rules_step_of_fresh hx hfresh, RuleSet.shown_append, if_neg hgiven, if_pos hfresh]
    · rw [rules_step_of_not_fresh hx hfresh, if_neg hfresh]
  refine ⟨hlast, ?_⟩
  rw [hlast]
  by_cases hfresh : Fresh base x
  · simp [hfresh]
  · simp [hfresh]

/-- A color for the printed body. -/
def printBody (color : String) : Registration :=
  .rule "@media print" ((Description.set {} "color" (.text color)).wrap "body")

def printedBody : Place := ⟨["@media print"], "body"⟩

/-- An at-rule that declares nothing for the printed body. -/
def page : Registration := .rule "@page" (Description.set {} "margin" (.text "0"))

theorem last_at_rule_wins_iff_blue :
    RuleSet.shown printedBody "color" (alone (printBody "blue")) = [⟨"color", "blue"⟩] ∧
    RuleSet.shown printedBody "color" (alone page) = [] ∧
    (RuleSet.shown printedBody "color" (run {} ([printBody "red"] ++ printBody "blue" :: [page])).rules =
        RuleSet.shown printedBody "color" (alone (printBody "blue")) ↔
      Fresh (run {} [printBody "red"]).rules (printBody "blue") ∨
        RuleSet.shown printedBody "color" (run {} [printBody "red"]).rules =
          RuleSet.shown printedBody "color" (alone (printBody "blue"))) := by
  have hblue : RuleSet.shown printedBody "color" (alone (printBody "blue")) = [⟨"color", "blue"⟩] := by
    decide +kernel
  have hpage : RuleSet.shown printedBody "color" (alone page) = [] := by decide +kernel
  have hat : (printBody "blue").IsAtRule := by
    show Selector.isAtRule "@media print" = true
    decide
  have hafter : ∀ y ∈ [page], y.IsAtRule ∧ RuleSet.shown printedBody "color" (alone y) = [] := by
    intro y hy
    obtain rfl := List.mem_singleton.mp hy
    exact ⟨by show Selector.isAtRule "@page" = true; decide, hpage⟩
  have hgiven : RuleSet.shown printedBody "color" (alone (printBody "blue")) ≠ [] := by
    rw [hblue]
    exact List.cons_ne_nil _ _
  exact ⟨hblue, hpage, (last_at_rule_wins_iff [printBody "red"] hat hgiven hafter).2⟩

/-- Red is registered last, but its block is the first one, and blue is shown. -/
theorem red_returns_unseen :
    RuleSet.shown printedBody "color" (alone (printBody "red")) = [⟨"color", "red"⟩] ∧
    RuleSet.shown printedBody "color" (run {} [printBody "red", printBody "blue", printBody "red"]).rules =
      [⟨"color", "blue"⟩] ∧
    (run {} [printBody "red", printBody "blue", printBody "red"]).css =
      "@media print\x7bbody\x7bcolor:red\x7d\x7d@media print\x7bbody\x7bcolor:blue\x7d\x7d" ∧
    (run {} [printBody "red", printBody "blue", printBody "red"]).version = 2 := by
  refine ⟨?_, ?_, ?_, ?_⟩
  · decide +kernel
  · decide +kernel
  · decide +kernel
  · decide +kernel

end Registry

end StyleEngine
