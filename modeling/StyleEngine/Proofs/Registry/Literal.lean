import StyleEngine.Proofs.Registry.Run
import StyleEngine.Proofs.RuleSet.Literal

/-!
# The last writer of a literal selector

Flat rules for a literal selector come to the registry one after the other, whether they come in one
registration or in many (`rules_run_arrivals`). They make one rule, which stands where the first of
them came and whose declarations of each property are those of the last of them that declares it
(`literal_rule_of_run`).
-/

namespace StyleEngine

/-- What a flat node declares for a selector at top level, if anything. -/
def FlatNode.givenFor (s : String) : FlatNode → List (List Declaration)
  | .rule selector declarations _ => if selector = s ∧ declarations ≠ [] then [declarations] else []
  | .atRule _ _ => []

namespace Registration

open Registry

/-- What a registration declares for a literal selector at top level, in order. -/
def givenFor (s : String) : Registration → List (List Declaration)
  | rule selector d =>
    if Selector.isAtRule selector then []
    else
      match d.normalize false with
      | .ok normal => (normal.flatten selector).flatMap (FlatNode.givenFor s)
      | .error _ => []
  | _ => []

/-- The slots of a registration, those for literal selectors one by one. -/
def arrivals : Registration → List (Option RuleKey × Rule)
  | rule selector d =>
    match d.normalize false with
    | .ok normal => (literalNodes selector normal).filterMap (RuleSet.slotOf? .bySelector)
    | .error _ => []
  | x => x.slots

variable {s : String}

theorem broughtFor_slotOf? (s : String) (nodes : List FlatNode) :
    (nodes.filterMap (RuleSet.slotOf? .bySelector)).flatMap (RuleSet.broughtFor s) =
      (nodes.flatMap (FlatNode.givenFor s)).map Declaration.sort := by
  induction nodes with
  | nil => rfl
  | cons node rest ih =>
    have hnode : (RuleSet.slotOf? .bySelector node).toList.flatMap (RuleSet.broughtFor s) =
        (node.givenFor s).map Declaration.sort := by
      cases node with
      | rule selector declarations unique =>
        rw [RuleSet.slotOf?, FlatNode.givenFor]
        by_cases hd : declarations = []
        · simp [hd]
        · by_cases hs : selector = s
          · subst hs
            simp [hd, RuleKey.ofRule, RuleSet.broughtFor]
          · simp [hd, hs, RuleKey.ofRule, RuleSet.broughtFor]
      | atRule rule children =>
        simp only [RuleSet.slotOf?, FlatNode.givenFor]
        split <;> rfl
    rw [List.flatMap_cons, List.map_append, ← ih, ← hnode, List.filterMap_cons]
    cases RuleSet.slotOf? .bySelector node with
    | none => rfl
    | some slot => simp

/-- Only literal rules come under the key of a literal selector. -/
theorem ne_literal_of_mem_slots {x : Registration} (hx : ∀ selector d, x ≠ rule selector d)
    {slot : Option RuleKey × Rule} (hs : slot ∈ x.slots) (s : String) : slot.1 ≠ some (.literal s) := by
  cases brings_of_mem_slots hs with
  | style hd hc => exact fun he => RuleSet.ofStyle_ne_literal _ s (Option.some.inj he)
  | rule selector d => exact absurd rfl (hx selector d)
  | face | frames => exact fun he => nomatch he

theorem broughtFor_slots {x : Registration} (hx : ∀ selector d, x ≠ rule selector d) :
    x.slots.flatMap (RuleSet.broughtFor s) = [] :=
  List.flatMap_eq_nil_iff.mpr fun _ hs => RuleSet.broughtFor_of_ne (ne_literal_of_mem_slots hx hs s)

/-- The slots of a registration bring for a selector what it declares, sorted. -/
theorem broughtFor_arrivals (s : String) (x : Registration) :
    x.arrivals.flatMap (RuleSet.broughtFor s) = (x.givenFor s).map Declaration.sort := by
  cases x with
  | rule selector d =>
    rw [arrivals, givenFor]
    cases d.normalize false with
    | error e => exact (congrArg (List.map Declaration.sort) (ite_self [])).symm
    | ok normal =>
      show List.flatMap _ ((literalNodes selector normal).filterMap _) = _
      rw [broughtFor_slotOf?, literalNodes]
      by_cases hat : Selector.isAtRule selector = true
      · rw [if_pos hat, if_pos hat]
        rfl
      · rw [if_neg hat, if_neg hat]
  | style d debug => exact broughtFor_slots (x := style d debug) fun _ _ he => nomatch he
  | faces ds => exact broughtFor_slots (x := faces ds) fun _ _ he => nomatch he
  | keyframes k debug => exact broughtFor_slots (x := keyframes k debug) fun _ _ he => nomatch he

theorem exists_flat_of_givenFor {x : Registration} (h : x.givenFor s ≠ []) :
    ∃ selector d style, x = .rule selector d ∧ Selector.isAtRule selector = false ∧
      d.normalize false = .ok style ∧
      x.givenFor s = (style.flatten selector).flatMap (FlatNode.givenFor s) ∧
      x.arrivals = (style.flatten selector).filterMap (RuleSet.slotOf? .bySelector) := by
  cases x with
  | style | faces | keyframes => exact absurd rfl h
  | rule selector d =>
    rw [givenFor] at h ⊢
    rw [arrivals]
    cases hat : Selector.isAtRule selector with
    | true => exact absurd (if_pos hat) h
    | false =>
      cases hd : d.normalize false with
      | error e => simp [hat, hd] at h
      | ok style =>
        refine ⟨selector, d, style, rfl, hat, hd, if_neg Bool.false_ne_true, ?_⟩
        show (literalNodes selector style).filterMap _ = _
        rw [literalNodes, if_neg (by simp [hat])]

theorem fits_arrivals (x : Registration) : ∀ slot ∈ x.arrivals, RuleSet.Fits slot := by
  intro slot hs
  cases x with
  | rule selector d =>
    rw [arrivals] at hs
    split at hs
    · obtain ⟨node, -, hnode⟩ := List.mem_filterMap.mp hs
      exact RuleSet.fits_slotOf? hnode
    · exact absurd hs List.not_mem_nil
  | style d debug => exact fits_slots (style d debug) slot hs
  | faces ds => exact fits_slots (faces ds) slot hs
  | keyframes k debug => exact fits_slots (keyframes k debug) slot hs

end Registration

namespace Registry

variable {s : String} {xs : List Registration}

theorem rules_step_arrivals (r : Registry) (x : Registration) :
    (r.step x).rules = (RuleSet.depositAll r.rules x.arrivals).1 := by
  rw [rules_step]
  cases x with
  | style | faces | keyframes => rfl
  | rule selector d =>
    rw [Registration.slots, Registration.compiled, Registration.arrivals]
    cases d.normalize false with
    | error e => rfl
    | ok style =>
      show (RuleSet.depositAll _ (RuleSet.rekey _ _)).1 = _
      rw [← RuleSet.mergeLiteral_eq_depositAll, RuleSet.mergeLiteral_ofNodes]

theorem rules_run_arrivals (xs : List Registration) (r : Registry) :
    (r.run xs).rules = (RuleSet.depositAll r.rules (xs.flatMap Registration.arrivals)).1 := by
  induction xs generalizing r with
  | nil => rfl
  | cons x rest ih =>
    have hrest : (r.run (x :: rest)).rules = ((r.step x).run rest).rules := rfl
    rw [hrest, ih, rules_step_arrivals, List.flatMap_cons, RuleSet.depositAll_append]

theorem broughtFor_flatMap_arrivals (s : String) (xs : List Registration) :
    (xs.flatMap Registration.arrivals).flatMap (RuleSet.broughtFor s) =
      (xs.flatMap (Registration.givenFor s)).map Declaration.sort := by
  induction xs with
  | nil => rfl
  | cons x rest ih =>
    rw [List.flatMap_cons, List.flatMap_append, ih, Registration.broughtFor_arrivals, ← List.map_append]
    rfl

/-! ## The first rule for a selector -/

/-- The rules that are there when the first flat rule for a selector comes: those of the registrations
before and those of the flat nodes before it. -/
inductive FirstFor (s : String) : List Registration → RuleSet → Prop
  | intro {before after : List Registration} {selector : String} {d : Description} {style : NormalStyle}
      {nodes more : List FlatNode} {own : List Declaration} {unique : Bool}
      (literal : Selector.isAtRule selector = false) (normal : d.normalize false = .ok style)
      (flat : style.flatten selector = nodes ++ .rule s own unique :: more) (declares : own ≠ [])
      (noneBefore : before.flatMap (Registration.givenFor s) = [])
      (noneInside : nodes.flatMap (FlatNode.givenFor s) = []) :
      FirstFor s (before ++ .rule selector d :: after)
        ((run {} before).rules.mergeLiteral (RuleSet.ofNodes .bySelector nodes)).1

theorem exists_first {α β : Type} {f : α → List β} {as : List α} (h : as.flatMap f ≠ []) :
    ∃ before a after, as = before ++ a :: after ∧ before.flatMap f = [] ∧ f a ≠ [] := by
  induction as with
  | nil => exact absurd rfl h
  | cons a rest ih =>
    by_cases ha : f a = []
    · rw [List.flatMap_cons, ha] at h
      obtain ⟨before, b, after, rfl, hbefore, hb⟩ := ih h
      exact ⟨a :: before, b, after, rfl, by rw [List.flatMap_cons, ha, hbefore]; rfl, hb⟩
    · exact ⟨[], a, rest, rfl, rfl, ha⟩

theorem exists_rule_of_givenFor {node : FlatNode} (h : node.givenFor s ≠ []) :
    ∃ own unique, node = .rule s own unique ∧ own ≠ [] ∧ node.givenFor s = [own] := by
  cases node with
  | atRule rule children => exact absurd rfl h
  | rule selector own unique =>
    rw [FlatNode.givenFor] at h ⊢
    by_cases hs : selector = s ∧ own ≠ []
    · obtain ⟨rfl, hown⟩ := hs
      exact ⟨own, unique, rfl, hown, if_pos ⟨rfl, hown⟩⟩
    · exact absurd (if_neg hs) h

/-- Without a flat rule for the selector there is no rule for it. -/
theorem absent_of_brought {rules : RuleSet} {ys : List (Option RuleKey × Rule)} (hf : ∀ y ∈ ys, RuleSet.Fits y)
    (hr : ∀ slot ∈ rules, slot.1 ≠ some (.literal s)) (h : ys.flatMap (RuleSet.broughtFor s) = []) :
    ∀ slot ∈ (RuleSet.depositAll rules ys).1, slot.1 ≠ some (.literal s) := by
  intro slot hs
  obtain ⟨⟨key?, rule⟩, hm, hev⟩ := RuleSet.mem_depositAll hs
  rw [hev.key_eq]
  rcases hm with hm | hm
  · exact hr _ hm
  · rintro rfl
    have hnil := List.flatMap_eq_nil_iff.mp h _ hm
    cases rule with
    | atRule | keyframes => exact absurd (hf _ hm) id
    | style selectors declarations unique =>
      rw [RuleSet.broughtFor_self] at hnil
      cases hnil

/-- If anything is declared for a selector, a first rule comes for it behind slots that bring nothing. -/
theorem exists_firstFor (h : xs.flatMap (Registration.givenFor s) ≠ []) :
    ∃ own earlier later, FirstFor s xs (RuleSet.depositAll [] earlier).1 ∧
      xs.flatMap Registration.arrivals =
        earlier ++ (some (.literal s), .style [s] (Declaration.sort own) false) :: later ∧
      (∀ y ∈ earlier, RuleSet.Fits y) ∧ earlier.flatMap (RuleSet.broughtFor s) = [] := by
  obtain ⟨before, x, after, rfl, hbefore, hx⟩ := exists_first h
  obtain ⟨selector, d, style, rfl, hat, hd, hgiven, harrivals⟩ := Registration.exists_flat_of_givenFor hx
  rw [hgiven] at hx
  obtain ⟨nodes, node, more, hflat, hnodes, hnode⟩ := exists_first hx
  obtain ⟨own, unique, rfl, hown, -⟩ := exists_rule_of_givenFor hnode
  have hslot : RuleSet.slotOf? .bySelector (.rule s own unique) =
      some (some (.literal s), .style [s] (Declaration.sort own) false) := by
    rw [RuleSet.slotOf?]
    simp [hown, RuleKey.ofRule]
  refine ⟨own, before.flatMap Registration.arrivals ++ nodes.filterMap (RuleSet.slotOf? .bySelector),
    more.filterMap (RuleSet.slotOf? .bySelector) ++ after.flatMap Registration.arrivals, ?_, ?_, ?_, ?_⟩
  · have hbase : (RuleSet.depositAll [] (before.flatMap Registration.arrivals ++
        nodes.filterMap (RuleSet.slotOf? .bySelector))).1 =
        ((run {} before).rules.mergeLiteral (RuleSet.ofNodes .bySelector nodes)).1 := by
      rw [RuleSet.depositAll_append, RuleSet.mergeLiteral_ofNodes, rules_run_arrivals]
    rw [hbase]
    exact .intro hat hd hflat hown hbefore hnodes
  · rw [List.flatMap_append, List.flatMap_cons, harrivals, hflat, List.filterMap_append,
      List.filterMap_cons_some hslot]
    simp only [List.append_assoc, List.cons_append]
  · intro y hy
    rcases List.mem_append.mp hy with hy | hy
    · obtain ⟨z, -, hz⟩ := List.mem_flatMap.mp hy
      exact Registration.fits_arrivals z y hz
    · obtain ⟨node, -, hnode⟩ := List.mem_filterMap.mp hy
      exact RuleSet.fits_slotOf? hnode
  · rw [List.flatMap_append, broughtFor_flatMap_arrivals, Registration.broughtFor_slotOf?, hbefore, hnodes]
    rfl

/-- Registering a literal rule again at once changes nothing. -/
theorem step_rule_step (r : Registry) (selector : String) (d : Description) :
    (r.step (.rule selector d)).step (.rule selector d) = r.step (.rule selector d) := by
  cases hd : d.normalize false with
  | error e =>
    have hstep : ∀ r : Registry, r.step (.rule selector d) = r := by
      intro r
      rw [step, apply, registerRule_eq, hd]
      rfl
    rw [hstep, hstep]
  | ok style =>
    have hstep : ∀ r : Registry, r.step (.rule selector d) =
        r.update (RuleSet.depositAll r.rules (RuleSet.ofNodes .bySelector (literalNodes selector style))) := by
      intro r
      rw [step, apply, registerRule_eq, hd]
      show r.update (RuleSet.mergeLiteral _ _) = _
      rw [RuleSet.mergeLiteral_eq_depositAll, RuleSet.rekey_ofNodes]
    have habs := RuleSet.absorbs_of_merged (RuleSet.keyTexts_nodup_ofNodes (literalNodes selector style))
      (RuleSet.settled_ofNodes _) r.rules
    rw [hstep r, hstep, rules_update, RuleSet.depositAll_of_absorbs habs]
    rfl

/-- For a literal selector nothing is stored until something is declared for it. Then one rule stands
where the first flat rule came, sorted, and its declarations of each property are those of the last
flat rule that declares it. Registering a literal rule twice in a row is registering it once. -/
theorem literal_rule_of_run (s : String) (xs : List Registration) :
    (xs.flatMap (Registration.givenFor s) = [] → ∀ slot ∈ (run {} xs).rules, slot.1 ≠ some (.literal s)) ∧
    (xs.flatMap (Registration.givenFor s) ≠ [] →
      ∃ base ds, FirstFor s xs base ∧ RuleSet.Stands s ds (base.map Prod.fst) (run {} xs).rules ∧
        Declaration.Sorted ds ∧
        ∀ p, Declaration.group p ds = Declaration.lastGroup p (xs.flatMap (Registration.givenFor s))) ∧
    ∀ selector d, run {} (xs ++ [.rule selector d, .rule selector d]) = run {} (xs ++ [.rule selector d]) := by
  refine ⟨fun h => ?_, fun h => ?_, fun selector d => ?_⟩
  · rw [rules_run_arrivals]
    refine absent_of_brought (fun y hy => ?_) (fun _ hm => absurd hm List.not_mem_nil) ?_
    · obtain ⟨x, -, hx⟩ := List.mem_flatMap.mp hy
      exact Registration.fits_arrivals x y hx
    · rw [broughtFor_flatMap_arrivals, h]
      rfl
  · obtain ⟨own, earlier, later, hfirst, harrived, hfits, hnone⟩ := exists_firstFor h
    have hgiven := broughtFor_flatMap_arrivals s xs
    rw [harrived, List.flatMap_append, hnone, List.flatMap_cons, RuleSet.broughtFor_self] at hgiven
    have habsent := absent_of_brought hfits (fun _ hm => absurd hm List.not_mem_nil) hnone
    refine ⟨_, _, hfirst, ?_, Declaration.sorted_foldl_replace (Declaration.sorted_sort own)
      (later.flatMap (RuleSet.broughtFor s)), fun p => ?_⟩
    · rw [rules_run_arrivals, harrived, RuleSet.depositAll_append, RuleSet.depositAll_cons]
      exact (RuleSet.stands_of_new habsent (Declaration.sort own)).depositAll later
    · rw [Declaration.group_foldl_replace, ← Declaration.lastGroup_map_sort p (xs.flatMap _), ← hgiven]
      rfl
  · have htwice : [Registration.rule selector d, .rule selector d] = [.rule selector d] ++ [.rule selector d] := rfl
    rw [htwice, ← List.append_assoc, run_snoc, run_snoc, step_rule_step]

/-- The body is declared twice, with a style between. -/
def bodyRun : List Registration :=
  [.rule "body" (Description.set (Description.set {} "margin" (.text "0")) "color" (.text "red")),
    .style (Description.set {} "color" (.text "red")) false,
    .rule "body" (Description.set {} "color" (.text "blue"))]

theorem literal_rule_of_bodyRun :
    (bodyRun.flatMap (Registration.givenFor "p") = [] ∧
      ∀ slot ∈ (run {} bodyRun).rules, slot.1 ≠ some (.literal "p")) ∧
    bodyRun.flatMap (Registration.givenFor "body") =
      [[⟨"margin", "0"⟩, ⟨"color", "red"⟩], [⟨"color", "blue"⟩]] ∧
    ∃ base ds, FirstFor "body" bodyRun base ∧
      RuleSet.Stands "body" ds (base.map Prod.fst) (run {} bodyRun).rules ∧ Declaration.Sorted ds ∧
      ∀ p, Declaration.group p ds = Declaration.lastGroup p (bodyRun.flatMap (Registration.givenFor "body")) := by
  have hnone : bodyRun.flatMap (Registration.givenFor "p") = [] := by decide +kernel
  have hgiven : bodyRun.flatMap (Registration.givenFor "body") =
      [[⟨"margin", "0"⟩, ⟨"color", "red"⟩], [⟨"color", "blue"⟩]] := by decide +kernel
  have hsome : bodyRun.flatMap (Registration.givenFor "body") ≠ [] := by
    rw [hgiven]
    exact List.cons_ne_nil _ _
  exact ⟨⟨hnone, (literal_rule_of_run "p" bodyRun).1 hnone⟩, hgiven, (literal_rule_of_run "body" bodyRun).2.1 hsome⟩

end Registry

end StyleEngine
