import StyleEngine.Proofs.RuleSet.Literal

/-!
# A raised flag means a change

The other half of what the change flag says. Deposits never take weight from a rule set, and one that
raises its flag adds to it or declares a literal rule anew. When no literal selector comes twice, nothing
that follows can undo that (`depositAll_ne_of_flag`). What is stored after deposits is told by the rules
alone, since a slot keeps its key (`Extends.eq_of_rules`).
-/

namespace StyleEngine

namespace Rule

theorem selectors_lt_share {added : List String} {rule : Rule} (h : (share added rule).2 = true) :
    rule.selectors.length < (share added rule).1.selectors.length := by
  cases rule with
  | atRule | keyframes => cases h
  | style selectors declarations unique =>
    obtain ⟨extra, he, -⟩ := addSelectors_eq_append selectors added
    have hextra : extra ≠ [] := by
      rintro rfl
      rw [List.append_nil] at he
      have hflag : (addSelectors selectors added).2 = false :=
        RuleSet.addSelectors_flag_iff.mpr fun s hs => he ▸ mem_addSelectors.mpr (.inr hs)
      exact Bool.false_ne_true (hflag.symm.trans h)
    have hpos : 0 < extra.length := List.length_pos_iff.mpr hextra
    rw [selectors_share, he, List.length_append]
    exact Nat.lt_add_of_pos_right hpos

theorem redeclare_ne_of_flag {new : List Declaration} {rule : Rule} (h : (redeclare new rule).2 = true) :
    (redeclare new rule).1 ≠ rule := by
  cases rule with
  | atRule | keyframes => cases h
  | style selectors declarations unique =>
    intro he
    have hne : Declaration.replace declarations new ≠ declarations := by simpa [redeclare] using h
    exact hne (Rule.style.inj he).2.1

end Rule

namespace RuleSet

variable {rules : RuleSet} {xs : List (Option RuleKey × Rule)} {key : RuleKey} {rule : Rule}

/-! ## Weight -/

/-- The number of rules and of the selectors that they list. -/
def weight : List (Option RuleKey × Rule) → Nat
  | [] => 0
  | slot :: rest => slot.2.selectors.length + 1 + weight rest

theorem weight_append (first second : List (Option RuleKey × Rule)) :
    weight (first ++ second) = weight first + weight second := by
  induction first with
  | nil => simp [weight]
  | cons slot rest ih =>
    rw [List.cons_append, weight, weight, ih]
    omega

theorem weight_lt_append (rules : RuleSet) (slot : Option RuleKey × Rule) :
    weight rules < weight (rules ++ [slot]) := by
  rw [weight_append, weight]
  omega

theorem Evolves.selectors_le {a b : Option RuleKey × Rule} (h : Evolves a b) :
    a.2.selectors.length ≤ b.2.selectors.length := by
  cases h with
  | same | redeclare => exact Nat.le_refl _
  | gather hk selectors extra =>
    show selectors.length ≤ (selectors ++ extra).length
    rw [List.length_append]
    exact Nat.le_add_right ..

theorem weight_deposit_le (rules : RuleSet) (x : Option RuleKey × Rule) :
    weight rules ≤ weight (deposit rules x).1 := by
  obtain ⟨key?, rule⟩ := x
  cases key? with
  | none => exact Nat.le_of_lt (weight_lt_append rules _)
  | some key =>
    rw [deposit]
    rcases absent_or_present rules key with ha | ⟨before, slot, after, rfl, hb, hs⟩
    · rw [place_of_absent ha]
      exact Nat.le_of_lt (weight_lt_append rules _)
    · have hle := (evolves_revise hs rule).selectors_le
      rw [place_of_present hb hs, weight_append, weight_append, weight, weight]
      omega

theorem weight_depositAll_le (rules : RuleSet) (xs : List (Option RuleKey × Rule)) :
    weight rules ≤ weight (depositAll rules xs).1 := by
  induction xs generalizing rules with
  | nil => exact Nat.le_refl _
  | cons x rest ih => exact Nat.le_trans (weight_deposit_le rules x) (ih _)

/-- A deposit for no literal selector adds weight when it raises its flag. -/
theorem weight_lt_deposit {x : Option RuleKey × Rule} (hx : ∀ s, x.1 ≠ some (.literal s))
    (h : (deposit rules x).2 = true) : weight rules < weight (deposit rules x).1 := by
  obtain ⟨key?, rule⟩ := x
  cases key? with
  | none => exact weight_lt_append rules _
  | some key =>
    rw [deposit] at h ⊢
    rcases absent_or_present rules key with ha | ⟨before, slot, after, rfl, hb, hs⟩
    · rw [place_of_absent ha]
      exact weight_lt_append rules _
    · rw [place_of_present hb hs] at h ⊢
      have hlt : slot.2.selectors.length < (key.revise rule slot.2).1.selectors.length := by
        cases rule with
        | atRule | keyframes => cases key <;> cases h
        | style selectors declarations unique =>
          cases key with
          | shared | unique => exact Rule.selectors_lt_share h
          | literal s => exact absurd rfl (hx s)
          | owned | atRule | keyframes => cases h
      simp only [weight_append, weight]
      omega

/-! ## Literal rules -/

/-- A deposit for a literal selector shows in the rule of the selector when it raises its flag. -/
theorem find?_ne_of_literal {s : String} (h : (deposit rules (some (.literal s), rule)).2 = true) :
    (deposit rules (some (.literal s), rule)).1.find? (.literal s) ≠ rules.find? (.literal s) := by
  rw [find?_deposit_self]
  rcases absent_or_present rules (.literal s) with ha | ⟨before, slot, after, rfl, hb, hs⟩
  · rw [find?_of_absent ha]
    exact fun he => nomatch he
  · rw [deposit, place_of_present hb hs] at h
    rw [find?_of_present hb hs]
    intro he
    cases rule with
    | atRule | keyframes => cases h
    | style selectors new unique => exact Rule.redeclare_ne_of_flag h (Option.some.inj he)

/-- No literal selector comes twice. -/
def LiteralsOnce (xs : List (Option RuleKey × Rule)) : Prop :=
  xs.Pairwise fun x y => ∀ s, x.1 = some (.literal s) → y.1 ≠ some (.literal s)

theorem literalsOnce_of_nodup (h : (keyTexts xs).Nodup) : LiteralsOnce xs := by
  induction xs with
  | nil => exact .nil
  | cons x rest ih =>
    obtain ⟨key?, rule⟩ := x
    refine List.pairwise_cons.mpr ⟨fun y hy s hx hys => ?_, ih ?_⟩
    · obtain rfl : key? = some (.literal s) := hx
      have hcons : ((RuleKey.literal s).text :: keyTexts rest).Nodup := by simpa [keyTexts] using h
      exact (List.nodup_cons.mp hcons).1 (mem_keyTexts.mpr ⟨y, hy, _, hys, rfl⟩)
    · cases key? with
      | none => simpa [keyTexts] using h
      | some key => exact (List.nodup_cons.mp (by simpa [keyTexts] using h)).2

theorem literalsOnce_of_none (h : ∀ x ∈ xs, ∀ s, x.1 ≠ some (.literal s)) : LiteralsOnce xs :=
  List.pairwise_of_forall_mem_list fun x hx _ _ s he => absurd he (h x hx s)

/-- The first deposit that raises its flag makes a change that no later one undoes: weight is never
lost, and the rule of its literal selector is not met again. -/
theorem depositAll_ne_of_flag (hl : LiteralsOnce xs) (h : (depositAll rules xs).2 = true) :
    (depositAll rules xs).1 ≠ rules := by
  induction xs generalizing rules with
  | nil => cases h
  | cons x rest ih =>
    obtain ⟨hx, hrest⟩ := List.pairwise_cons.mp hl
    rw [depositAll_cons]
    cases hflag : (deposit rules x).2 with
    | false =>
      -- nothing was stored, so a later deposit raised the flag
      have hsame : (deposit rules x).1 = rules := honest_deposit x rules hflag
      have hlater : (depositAll rules rest).2 = true := by
        have hor : ((deposit rules x).2 || (depositAll (deposit rules x).1 rest).2) = true := h
        rwa [hflag, hsame, Bool.false_or] at hor
      rw [hsame]
      exact ih hrest hlater
    | true =>
      intro he
      by_cases hlit : ∃ s, x.1 = some (.literal s)
      · obtain ⟨key?, rule⟩ := x
        obtain ⟨s, rfl⟩ := hlit
        -- its weight may be the same, but its rule is not
        have hkept := find?_depositAll_of_ne (fun y hy => not_holds_literal.mpr (hx y hy s rfl))
          (deposit rules (some (.literal s), rule)).1
        rw [he] at hkept
        exact find?_ne_of_literal hflag hkept.symm
      · have hlt := weight_lt_deposit (fun s hs => hlit ⟨s, hs⟩) hflag
        have hle := weight_depositAll_le (deposit rules x).1 rest
        rw [he] at hle
        omega

theorem depositAll_singleton (rules : RuleSet) (x : Option RuleKey × Rule) :
    depositAll rules [x] = deposit rules x := Prod.ext rfl (Bool.or_false _)

theorem depositAll_flag_iff (hl : LiteralsOnce xs) :
    (depositAll rules xs).2 = false ↔ (depositAll rules xs).1 = rules := by
  refine ⟨honest_depositAll xs rules, fun h => ?_⟩
  cases hflag : (depositAll rules xs).2 with
  | false => rfl
  | true => exact absurd h (depositAll_ne_of_flag hl hflag)

/-- With the same rules in the same places, the keys are the same too. -/
theorem Extends.eq_of_rules {before after : RuleSet} (h : Extends before after)
    (hr : after.map Prod.snd = before.map Prod.snd) : after = before := by
  have hlength : after.length = before.length := by simpa using congrArg List.length hr
  refine List.ext_getElem? fun i => ?_
  cases hb : before[i]? with
  | none =>
    rw [List.getElem?_eq_none_iff] at hb ⊢
    omega
  | some slot =>
    obtain ⟨slot', ha, hev⟩ := h i slot hb
    have hsnd : (after.map Prod.snd)[i]? = (before.map Prod.snd)[i]? := by rw [hr]
    rw [List.getElem?_map, List.getElem?_map, ha, hb] at hsnd
    rw [ha, Prod.ext hev.key_eq (Option.some.inj hsnd)]

end RuleSet

end StyleEngine
