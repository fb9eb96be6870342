import StyleEngine.Proofs.RuleSet.Merge

/-!
# What the change flag says

Every revision, placement and deposit comes with a flag, and a flag that is down means that nothing
was changed. A slot that is already there in full is absorbed (`Absorbs`): its flag stays down.
-/

namespace StyleEngine

/-- A revision that does not raise its flag leaves the rule as it is. -/
def Rule.Honest (revise : Rule → Rule × Bool) : Prop :=
  ∀ rule, (revise rule).2 = false → (revise rule).1 = rule

/-- The same for a step on a whole rule set. -/
def RuleSet.Honest (step : RuleSet → RuleSet × Bool) : Prop :=
  ∀ rules, (step rules).2 = false → (step rules).1 = rules

namespace Rule

theorem addSelectors_of_unchanged {selectors added : List String}
    (h : (addSelectors selectors added).2 = false) : (addSelectors selectors added).1 = selectors := by
  induction added with
  | nil => rfl
  | cons s rest ih =>
    unfold addSelectors at h ⊢
    split at h
    · next hs => rw [if_pos hs]; exact ih h
    · cases h

theorem honest_share (added : List String) : Honest (share added) := by
  intro rule h
  cases rule with
  | style selectors declarations unique => simp only [share] at h ⊢; rw [addSelectors_of_unchanged h]
  | atRule | keyframes => rfl

theorem honest_redeclare (new : List Declaration) : Honest (redeclare new) := by
  intro rule h
  cases rule with
  | style selectors declarations unique =>
    have hd : Declaration.replace declarations new = declarations := by simpa [redeclare] using h
    simp only [redeclare, hd]
  | atRule | keyframes => rfl

theorem honest_keep : Honest keep := fun _ _ => rfl

end Rule

namespace RuleSet

theorem honest_place {key : RuleKey} {fresh : Rule} {revise : Rule → Rule × Bool}
    (hr : Rule.Honest revise) : Honest (place key fresh revise) := by
  intro rules
  induction rules with
  | nil => intro h; cases h
  | cons slot rest ih =>
    intro h
    unfold place at h ⊢
    split at h
    · next hk => rw [if_pos hk]; simp only at h ⊢; rw [hr slot.2 h]
    · next hk => rw [if_neg hk]; simp only at h ⊢; rw [ih h]

theorem honest_revise (key : RuleKey) (rule : Rule) : Rule.Honest (key.revise rule) := by
  cases rule with
  | atRule | keyframes => cases key <;> exact Rule.honest_keep
  | style selectors declarations unique =>
    cases key with
    | shared | unique => exact Rule.honest_share selectors
    | literal => exact Rule.honest_redeclare declarations
    | owned | atRule | keyframes => exact Rule.honest_keep

theorem honest_deposit (x : Option RuleKey × Rule) : Honest (deposit · x) := by
  obtain ⟨key?, rule⟩ := x
  cases key? with
  | none => exact fun _ h => nomatch h
  | some key => exact honest_place (honest_revise key rule)

theorem honest_depositAll (xs : List (Option RuleKey × Rule)) : Honest (depositAll · xs) := by
  induction xs with
  | nil => exact fun _ _ => rfl
  | cons x rest ih =>
    intro rules h
    have hor : ((deposit rules x).2 || (depositAll (deposit rules x).1 rest).2) = false := h
    rw [Bool.or_eq_false_iff] at hor
    show (depositAll (deposit rules x).1 rest).1 = rules
    rw [ih _ hor.2, honest_deposit x rules hor.1]

/-! ## Absorbed slots -/

/-- Bringing the slot changes nothing. -/
def Absorbs (rules : RuleSet) (x : Option RuleKey × Rule) : Prop := deposit rules x = (rules, false)

variable {rules : RuleSet} {xs : List (Option RuleKey × Rule)} {key : RuleKey} {rule : Rule}

theorem depositAll_of_absorbs (h : ∀ x ∈ xs, Absorbs rules x) : depositAll rules xs = (rules, false) := by
  induction xs with
  | nil => rfl
  | cons x rest ih =>
    have hx : deposit rules x = (rules, false) := h x List.mem_cons_self
    have hrest := ih fun y hy => h y (List.mem_cons_of_mem _ hy)
    rw [depositAll, hx]
    show ((depositAll rules rest).1, false || (depositAll rules rest).2) = (rules, false)
    rw [hrest]
    rfl

theorem absorbs_of_depositAll (h : (depositAll rules xs).2 = false) : ∀ x ∈ xs, Absorbs rules x := by
  induction xs with
  | nil => exact fun _ hx => absurd hx List.not_mem_nil
  | cons x rest ih =>
    have hor : ((deposit rules x).2 || (depositAll (deposit rules x).1 rest).2) = false := h
    rw [Bool.or_eq_false_iff] at hor
    have hx : Absorbs rules x := Prod.ext (honest_deposit x rules hor.1) hor.1
    intro y hy
    rcases List.mem_cons.mp hy with rfl | hy
    · exact hx
    · refine ih ?_ y hy
      rw [hx] at hor
      exact hor.2

/-- A slot is absorbed when the first rule under its key needs no revision. -/
theorem absorbs_iff : Absorbs rules (some key, rule) ↔
    ∃ before slot after, rules = before ++ slot :: after ∧ (∀ s ∈ before, holds key s = false) ∧
      holds key slot = true ∧ (key.revise rule slot.2).2 = false := by
  constructor
  · intro h
    rcases absent_or_present rules key with ha | ⟨before, slot, after, rfl, hb, hs⟩
    · rw [Absorbs, deposit, place_of_absent ha] at h
      cases (Prod.mk.inj h).2
    · rw [Absorbs, deposit, place_of_present hb hs] at h
      exact ⟨before, slot, after, rfl, hb, hs, (Prod.mk.inj h).2⟩
  · rintro ⟨before, slot, after, rfl, hb, hs, hflag⟩
    rw [Absorbs, deposit, place_of_present hb hs, honest_revise key rule slot.2 hflag, hflag]

theorem addSelectors_flag_iff {selectors added : List String} :
    (Rule.addSelectors selectors added).2 = false ↔ ∀ s ∈ added, s ∈ selectors := by
  constructor
  · intro h s hs
    rw [← Rule.addSelectors_of_unchanged h]
    exact Rule.mem_addSelectors.mpr (.inr hs)
  · exact fun h => by rw [Rule.addSelectors_of_subset h]

/-- Rules that are neither gathered nor declared anew are absorbed wherever their key is present. -/
theorem absorbs_of_present (hg : ¬ key.Gathers) (hl : ∀ s, key ≠ .literal s)
    (h : ∃ slot ∈ rules, holds key slot = true) : Absorbs rules (some key, rule) := by
  rcases absent_or_present rules key with ha | ⟨before, slot, after, rfl, hb, hs⟩
  · obtain ⟨slot, hm, hh⟩ := h
    rw [ha slot hm] at hh
    cases hh
  · refine absorbs_iff.mpr ⟨before, slot, after, rfl, hb, hs, ?_⟩
    cases key with
    | shared | unique => exact absurd trivial hg
    | literal s => exact absurd rfl (hl s)
    | owned | atRule | keyframes => cases rule <;> rfl

/-- A shared block absorbs selectors that it lists. -/
theorem absorbs_shared_iff {block : String} {selectors : List String} {declarations : List Declaration}
    {unique : Bool} (hr : ∀ slot ∈ rules, Fits slot) (hn : (keyTexts rules).Nodup) :
    Absorbs rules (some (.shared block), .style selectors declarations unique) ↔
      (∃ rule, (some (.shared block), rule) ∈ rules) ∧ ∀ s ∈ selectors, Lists rules block s := by
  rw [absorbs_iff]
  constructor
  · rintro ⟨before, ⟨key?, stored⟩, after, rfl, -, hs, hflag⟩
    obtain ⟨k, rfl, ht⟩ := exists_key_of_holds hs
    obtain rfl := RuleKey.eq_of_text_shared ht
    have hm : (some (.shared block), stored) ∈ before ++ (some (.shared block), stored) :: after :=
      List.mem_append_right _ List.mem_cons_self
    refine ⟨⟨stored, hm⟩, fun s hmem => ?_⟩
    cases stored with
    | atRule | keyframes => exact absurd (hr _ hm) id
    | style ss ds u => exact ⟨ss, ds, u, hm, addSelectors_flag_iff.mp hflag s hmem⟩
  · rintro ⟨⟨rule, hm⟩, hlists⟩
    rcases absent_or_present rules (.shared block) with ha | ⟨before, ⟨key?, stored⟩, after, rfl, hb, hs⟩
    · have hh : holds (.shared block) (some (.shared block), rule) = true := holds_eq_true.mpr rfl
      rw [ha _ hm] at hh
      cases hh
    · refine ⟨before, (key?, stored), after, rfl, hb, hs, ?_⟩
      obtain ⟨k, rfl, ht⟩ := exists_key_of_holds hs
      obtain rfl := RuleKey.eq_of_text_shared ht
      have hm' : (some (.shared block), stored) ∈ before ++ (some (.shared block), stored) :: after :=
        List.mem_append_right _ List.mem_cons_self
      cases stored with
      | atRule | keyframes => rfl
      | style ss ds u =>
        refine addSelectors_flag_iff.mpr fun s hmem => ?_
        obtain ⟨ss', ds', u', hl, hin⟩ := hlists s hmem
        obtain ⟨rfl, -⟩ := Rule.style.inj (rule_unique hn hl hm')
        exact hin

end RuleSet

end StyleEngine
