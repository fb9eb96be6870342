import StyleEngine.Proofs.RuleSet.Onto
import StyleEngine.Proofs.RuleSet.Unchanged

/-!
# Outlines

The outline of a rule set is what its keys and selectors say. Deposits can be made on outlines, and
when selectors and bodies are rewritten it makes no difference whether the deposits are rewritten or
the rule set that they made (`depositAll_refit`).
-/

namespace StyleEngine

namespace Rule

theorem addSelectors_nil (selectors : List String) : (addSelectors selectors []).1 = selectors := rfl

/-- Selectors that were added before they are rewritten add nothing afterwards. -/
theorem addSelectors_map_addSelectors (σ : String → String) (base selectors added : List String) :
    (addSelectors base ((addSelectors selectors added).1.map σ)).1 =
      (addSelectors base (selectors.map σ ++ added.map σ)).1 := by
  induction added generalizing selectors with
  | nil => rw [addSelectors_nil, List.map_nil, List.append_nil]
  | cons s rest ih =>
    by_cases hs : s ∈ selectors
    · have hold : σ s ∈ (addSelectors base (selectors.map σ)).1 :=
        mem_addSelectors.mpr (.inr (List.mem_map_of_mem hs))
      rw [addSelectors_of_mem hs, ih, List.map_cons, addSelectors_append, addSelectors_append,
        addSelectors_of_mem hold]
    · rw [addSelectors_of_not_mem hs, ih, List.map_append, List.append_assoc]
      rfl

/-- The selectors of a list, each once. -/
def gather (selectors : List String) : List String := (addSelectors [] selectors).1

theorem addSelectors_gather (selectors added : List String) :
    (addSelectors selectors (gather added)).1 = (addSelectors selectors added).1 := by
  rw [gather, ← addSelectors_assoc, addSelectors_nil]

theorem gather_map_addSelectors (σ : String → String) (selectors added : List String) :
    gather ((addSelectors selectors added).1.map σ) =
      (addSelectors (gather (selectors.map σ)) (gather (added.map σ))).1 := by
  rw [addSelectors_gather, gather, gather, addSelectors_map_addSelectors, addSelectors_append]

end Rule

namespace RuleSet

variable {rules : RuleSet} {xs : List (Option RuleKey × Rule)} {key : RuleKey} {rule : Rule}

/-! ## Deposits in another order -/

theorem deposit_cons (slot : Option RuleKey × Rule) (rest : RuleSet) (key : RuleKey) (rule : Rule) :
    (deposit (slot :: rest) (some key, rule)).1 =
      if holds key slot = true then (slot.1, (key.revise rule slot.2).1) :: rest
      else slot :: (deposit rest (some key, rule)).1 := by
  rw [deposit, place]
  split <;> rfl

theorem not_holds_of_holds {other : RuleKey} {slot : Option RuleKey × Rule} (h : holds key slot = true)
    (hne : other.text ≠ key.text) : ¬ holds other slot = true := by
  obtain ⟨k, hk, ht⟩ := exists_key_of_holds h
  obtain ⟨k?, r⟩ := slot
  obtain rfl : k? = some k := hk
  exact fun hh => hne ((holds_eq_true.mp hh).symm.trans ht)

/-- What comes under a key that is present can come before what comes under another key. -/
theorem deposit_comm {y : Option RuleKey × Rule} (hp : ∃ slot ∈ rules, holds key slot = true)
    (hy : holds key y = false) :
    (deposit (deposit rules y).1 (some key, rule)).1 = (deposit (deposit rules (some key, rule)).1 y).1 := by
  obtain ⟨key?, other⟩ := y
  cases key? with
  | none => exact deposit_append_of_present hp
  | some k =>
    have hne : k.text ≠ key.text := fun ht => by
      rw [holds_eq_true.mpr ht] at hy
      cases hy
    induction rules with
    | nil =>
      obtain ⟨slot, hm, -⟩ := hp
      exact absurd hm List.not_mem_nil
    | cons slot rest ih =>
      rw [deposit_cons slot rest k, deposit_cons slot rest key]
      by_cases hkey : holds key slot = true
      · have hk : ¬ holds k slot = true := not_holds_of_holds hkey hne
        have hk' : ¬ holds k (slot.1, (key.revise rule slot.2).1) = true := hk
        rw [if_pos hkey, if_neg hk, deposit_cons, deposit_cons, if_pos hkey, if_neg hk']
      · rw [if_neg hkey]
        by_cases hk : holds k slot = true
        · have hkey' : ¬ holds key (slot.1, (k.revise other slot.2).1) = true := hkey
          rw [if_pos hk, deposit_cons, deposit_cons, if_pos hk, if_neg hkey']
        · have hrest : ∃ s ∈ rest, holds key s = true := by
            obtain ⟨s, hm, hh⟩ := hp
            rcases List.mem_cons.mp hm with rfl | hm
            · exact absurd hh hkey
            · exact ⟨s, hm, hh⟩
          rw [if_neg hk, deposit_cons, deposit_cons, if_neg hk, if_neg hkey, ih hrest]

theorem deposit_depositAll_comm (hp : ∃ slot ∈ rules, holds key slot = true)
    (hx : ∀ x ∈ xs, holds key x = false) :
    (deposit (depositAll rules xs).1 (some key, rule)).1 =
      (depositAll (deposit rules (some key, rule)).1 xs).1 := by
  induction xs generalizing rules with
  | nil => rfl
  | cons x rest ih =>
    have hp' : ∃ slot ∈ (deposit rules x).1, holds key slot = true := by
      obtain ⟨slot, hm, hh⟩ := hp
      obtain ⟨slot', hm', he⟩ := (extends_deposit rules x).mem hm
      exact ⟨slot', hm', by rw [holds, he.key_eq]; exact hh⟩
    rw [depositAll_cons, depositAll_cons, ih hp' fun y hy => hx y (List.mem_cons_of_mem _ hy),
      deposit_comm hp (hx x List.mem_cons_self)]

/-- Two gathering rules can be merged before they come. -/
theorem deposit_deposit_of_gathers (hg : key.Gathers) {selectors : List String}
    {declarations : List Declaration} {unique : Bool} (rules : RuleSet) (second : Rule) :
    (deposit (deposit rules (some key, .style selectors declarations unique)).1 (some key, second)).1 =
      (deposit rules (some key, (key.revise second (.style selectors declarations unique)).1)).1 := by
  have hself : ∀ r : Rule, holds key (some key, r) = true := fun _ => holds_eq_true.mpr rfl
  rcases absent_or_present rules key with ha | ⟨before, slot, after, rfl, hb, hs⟩
  · rw [deposit, deposit, deposit, place_of_absent ha, place_of_absent ha, place_of_present ha (hself _)]
  · have hs' : ∀ r : Rule, holds key (slot.1, r) = true := fun _ => hs
    rw [deposit, deposit, deposit, place_of_present hb hs, place_of_present hb hs,
      place_of_present hb (hs' _)]
    simp only [RuleKey.revise_of_gathers hg, Rule.share_share]
    rfl

end RuleSet

/-! ## Outlines -/

/-- The kinds of key of which a rule set consists when nothing in it is marked unique. -/
def RuleKey.Told : RuleKey → Prop
  | .shared _ | .atRule _ _ => True
  | _ => False

namespace RuleSet

variable {rules : RuleSet} {xs : List (Option RuleKey × Rule)} {key : RuleKey} {rule : Rule}

/-- A slot without its declarations and its body. -/
def outline (slot : Option RuleKey × Rule) : Option RuleKey × Rule :=
  (slot.1, .style slot.2.selectors [] false)

/-- The outline of a slot with its selectors rewritten by `σ` and its body by `τ`. -/
def refit (σ τ : String → String) : Option RuleKey × Rule → Option RuleKey × Rule
  | (some (.shared block), rule) =>
    (some (.shared block), .style (Rule.gather (rule.selectors.map σ)) [] false)
  | (some (.atRule rule body), _) => (some (.atRule rule (τ body)), .style [] [] false)
  | slot => slot

theorem refit_outline {slot : Option RuleKey × Rule} (hk : slot.1 = some key) (ht : key.Told)
    (σ τ : String → String) : refit σ τ (outline slot) = refit σ τ slot := by
  obtain ⟨k?, rule⟩ := slot
  obtain rfl : k? = some key := hk
  cases key with
  | shared | atRule => rfl
  | unique | owned | literal | keyframes => exact absurd ht id

/-- Under a shared block stands a style rule. -/
theorem selectors_share_of_fits {block : String} {stored : Rule} (hf : Fits (some (.shared block), stored))
    (added : List String) :
    (Rule.share added stored).1.selectors = (Rule.addSelectors stored.selectors added).1 := by
  cases stored with
  | style => rfl
  | atRule | keyframes => exact absurd hf id

theorem revise_atRule (r body : String) (rule stored : Rule) :
    ((RuleKey.atRule r body).revise rule stored).1 = stored :=
  RuleKey.revise_of_not_gathers id (fun _ h => by cases h) rule stored

theorem revise_shared (block : String) (rule stored : Rule) :
    ((RuleKey.shared block).revise rule stored).1 = (Rule.share rule.selectors stored).1 :=
  have hg : (RuleKey.shared block).Gathers := trivial
  RuleKey.revise_of_gathers hg rule stored

theorem outline_revise {slot : Option RuleKey × Rule} (hk : key.Told) (hf : Fits slot)
    (hs : holds key slot = true) (rule : Rule) :
    outline (slot.1, (key.revise rule slot.2).1) =
      ((outline slot).1, (key.revise (.style rule.selectors [] false) (outline slot).2).1) := by
  obtain ⟨k, hkey, ht⟩ := exists_key_of_holds hs
  obtain ⟨k?, stored⟩ := slot
  obtain rfl : k? = some k := hkey
  cases key with
  | unique | owned | literal | keyframes => exact absurd hk id
  | atRule =>
    rw [revise_atRule, revise_atRule]
  | shared block =>
    obtain rfl := RuleKey.eq_of_text_shared ht
    rw [revise_shared, revise_shared, outline, selectors_share_of_fits hf]
    rfl

theorem map_outline_depositAll (hr : ∀ slot ∈ rules, Fits slot)
    (hx : ∀ x ∈ xs, Fits x ∧ ∃ key, x.1 = some key ∧ key.Told) :
    (depositAll rules xs).1.map outline = (depositAll (rules.map outline) (xs.map outline)).1 := by
  induction xs generalizing rules with
  | nil => rfl
  | cons x rest ih =>
    obtain ⟨hfx, key, hkey, hk⟩ := hx x List.mem_cons_self
    have hone : ∀ y ∈ [x], Fits y := fun y hy => List.mem_singleton.mp hy ▸ hfx
    have hr' : ∀ s ∈ (deposit rules x).1, Fits s := fits_depositAll hr hone
    rw [depositAll_cons, ih hr' fun y hy => hx y (List.mem_cons_of_mem _ hy),
      List.map_cons, depositAll_cons]
    congr 2
    obtain ⟨key?, rule⟩ := x
    obtain rfl : key? = some key := hkey
    show _ = (deposit (rules.map outline) (some key, .style rule.selectors [] false)).1
    rcases absent_or_present rules key with ha | ⟨before, slot, after, rfl, hb, hs⟩
    · have ha' : ∀ s ∈ rules.map outline, holds key s = false := by
        intro s hm
        obtain ⟨t, ht, rfl⟩ := List.mem_map.mp hm
        exact ha t ht
      rw [deposit, deposit, place_of_absent ha, place_of_absent ha', List.map_append]
      rfl
    · have hb' : ∀ s ∈ before.map outline, holds key s = false := by
        intro s hm
        obtain ⟨t, ht, rfl⟩ := List.mem_map.mp hm
        exact hb t ht
      have hs' : holds key (outline slot) = true := hs
      have hfits : Fits slot := hr slot (List.mem_append_right _ List.mem_cons_self)
      rw [deposit, deposit, place_of_present hb hs, List.map_append, List.map_cons, List.map_append,
        List.map_cons, place_of_present hb' hs', outline_revise hk hfits hs]

/-! ## Rewritten deposits -/

theorem holds_refit_shared (σ τ : String → String) (block : String) (slot : Option RuleKey × Rule) :
    holds (.shared block) (refit σ τ slot) = holds (.shared block) slot := by
  obtain ⟨k?, rule⟩ := slot
  cases k? with
  | none => rfl
  | some k =>
    cases k with
    | shared | unique | owned | literal | keyframes => rfl
    | atRule r body =>
      have hno : ∀ b, holds (.shared block) (some (.atRule r b), rule) = false := fun b =>
        Bool.eq_false_iff.mpr fun h => nomatch RuleKey.eq_of_text_shared (holds_eq_true.mp h)
      rw [hno body]
      exact hno (τ body)

/-- Rewriting what one deposit has made is making the rewritten deposit. -/
theorem deposit_refit (hf : ∀ slot ∈ rules, Fits slot) (hn : (keyTexts rules).Nodup) (hk : key.Told)
    (hclean : key.Clean) (σ τ : String → String) (rule : Rule) :
    (depositAll [] ((deposit rules (some key, rule)).1.map (refit σ τ))).1 =
      (deposit (depositAll [] (rules.map (refit σ τ))).1 (refit σ τ (some key, rule))).1 := by
  rcases absent_or_present rules key with ha | ⟨before, ⟨key?, stored⟩, after, rfl, hb, hs⟩
  · rw [deposit, place_of_absent ha, List.map_append, depositAll_append]
    rfl
  obtain ⟨k, rfl, ht⟩ := exists_key_of_holds hs
  cases key with
  | unique | owned | literal | keyframes => exact absurd hk id
  | atRule r body =>
    -- the block is there, so nothing is made of either deposit
    obtain rfl := RuleKey.eq_of_text hclean ht
    have hstored : (some (.atRule r (τ body)), Rule.style [] [] false) ∈
        (before ++ (some (.atRule r body), stored) :: after).map (refit σ τ) :=
      List.mem_map.mpr ⟨_, List.mem_append_right _ List.mem_cons_self, rfl⟩
    have habsorbs : Absorbs (depositAll [] ((before ++ (some (.atRule r body), stored) :: after).map
        (refit σ τ))).1 (refit σ τ (some (.atRule r body), rule)) :=
      absorbs_of_present id (fun _ h => by cases h) (exists_holds_depositAll [] hstored)
    rw [deposit, place_of_present hb hs, revise_atRule, habsorbs]
  | shared block =>
    obtain rfl := RuleKey.eq_of_text_shared ht
    have hg : (RuleKey.shared block).Gathers := trivial
    have hfits : Fits (some (.shared block), stored) := hf _ (List.mem_append_right _ List.mem_cons_self)
    have hafter : ∀ x ∈ after.map (refit σ τ), holds (.shared block) x = false := by
      intro x hx
      obtain ⟨s, hm, rfl⟩ := List.mem_map.mp hx
      rw [holds_refit_shared]
      exact not_holds_of_nodup hn hs s hm
    have hrevised : refit σ τ (some (.shared block), ((RuleKey.shared block).revise rule stored).1) =
        (some (.shared block), ((RuleKey.shared block).revise (refit σ τ (some (.shared block), rule)).2
          (.style (Rule.gather (stored.selectors.map σ)) [] false)).1) := by
      rw [revise_shared, revise_shared, refit,
        selectors_share_of_fits hfits, Rule.gather_map_addSelectors]
      rfl
    -- the rewritten rule comes before the ones after it, where it meets the one under its key
    rw [deposit, place_of_present hb hs, List.map_append, List.map_cons, depositAll_append,
      depositAll_cons, hrevised, List.map_append, List.map_cons, depositAll_append, depositAll_cons,
      ← deposit_deposit_of_gathers hg]
    exact (deposit_depositAll_comm (exists_holds_deposit _ _ _) hafter).symm

/-- Rewriting a rule set is rewriting the deposits that made it. -/
theorem depositAll_refit (hf : ∀ slot ∈ rules, Fits slot) (hn : (keyTexts rules).Nodup)
    (hx : ∀ x ∈ xs, Fits x ∧ ∃ key, x.1 = some key ∧ key.Told ∧ key.Clean) (σ τ : String → String) :
    (depositAll [] ((depositAll rules xs).1.map (refit σ τ))).1 =
      (depositAll (depositAll [] (rules.map (refit σ τ))).1 (xs.map (refit σ τ))).1 := by
  induction xs generalizing rules with
  | nil => rfl
  | cons x rest ih =>
    obtain ⟨hfx, key, hkey, hk, hclean⟩ := hx x List.mem_cons_self
    obtain ⟨key?, rule⟩ := x
    obtain rfl : key? = some key := hkey
    have hone : ∀ y ∈ [(some key, rule)], Fits y := fun y hy => List.mem_singleton.mp hy ▸ hfx
    have hf' : ∀ s ∈ (deposit rules (some key, rule)).1, Fits s := fits_depositAll hf hone
    rw [depositAll_cons, ih hf' (keyTexts_nodup_deposit hn)
      fun y hy => hx y (List.mem_cons_of_mem _ hy), deposit_refit hf hn hk hclean, List.map_cons, depositAll_cons]

end RuleSet

end StyleEngine
