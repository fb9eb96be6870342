import StyleEngine.Proofs.RuleSet.Merge

/-!
# Deposits onto a rule set

What a list of deposits makes of a rule set is told by what it makes of the empty one: the stored
rules take over the selectors gathered under their keys, and the rules under new keys follow in the
order that they have on their own (`depositAll_onto`).
-/

namespace StyleEngine

namespace Rule

/-- The selectors of a style rule. -/
def selectors : Rule → List String
  | style selectors _ _ => selectors
  | _ => []

theorem addSelectors_append (selectors first second : List String) :
    (addSelectors selectors (first ++ second)).1 =
      (addSelectors (addSelectors selectors first).1 second).1 := by
  induction first generalizing selectors with
  | nil => rfl
  | cons a rest ih =>
    rw [List.cons_append, addSelectors, addSelectors]
    split
    · exact ih selectors
    · exact ih (selectors ++ [a])

theorem addSelectors_of_mem {selectors : List String} {s : String} (h : s ∈ selectors)
    (rest : List String) : addSelectors selectors (s :: rest) = addSelectors selectors rest := by
  rw [addSelectors, if_pos (List.contains_iff_mem.mpr h)]

theorem addSelectors_of_not_mem {selectors : List String} {s : String} (h : s ∉ selectors)
    (rest : List String) :
    (addSelectors selectors (s :: rest)).1 = (addSelectors (selectors ++ [s]) rest).1 := by
  rw [addSelectors, if_neg fun hc => h (List.contains_iff_mem.mp hc)]

/-- Adding in two goes is adding what the second go finds new. -/
theorem addSelectors_assoc (selectors first second : List String) :
    (addSelectors (addSelectors selectors first).1 second).1 =
      (addSelectors selectors (addSelectors first second).1).1 := by
  induction second generalizing first with
  | nil => rfl
  | cons s rest ih =>
    by_cases hf : s ∈ first
    · have hs : s ∈ (addSelectors selectors first).1 := mem_addSelectors.mpr (.inr hf)
      rw [addSelectors_of_mem hs, addSelectors_of_mem hf, ih]
    · rw [addSelectors_of_not_mem hf, ← ih, addSelectors_append]
      by_cases hs : s ∈ (addSelectors selectors first).1
      · rw [addSelectors_of_mem hs, addSelectors_of_mem hs]
        rfl
      · rw [addSelectors_of_not_mem hs, addSelectors_of_not_mem hs]
        rfl

/-- Distinct selectors that are all new are appended. -/
theorem addSelectors_of_disjoint {selectors added : List String} (hd : added.Nodup)
    (h : ∀ s ∈ added, s ∉ selectors) : (addSelectors selectors added).1 = selectors ++ added := by
  induction added generalizing selectors with
  | nil => simp [addSelectors]
  | cons a rest ih =>
    obtain ⟨ha, hrest⟩ := List.nodup_cons.mp hd
    have hnew : ∀ s ∈ rest, s ∉ selectors ++ [a] := by
      intro s hs hm
      rcases List.mem_append.mp hm with hm | hm
      · exact h s (List.mem_cons_of_mem _ hs) hm
      · exact ha (List.mem_singleton.mp hm ▸ hs)
    rw [addSelectors_of_not_mem (h a List.mem_cons_self), ih hrest hnew, List.append_assoc]
    rfl

theorem selectors_share (added : List String) (selectors : List String) (declarations : List Declaration)
    (unique : Bool) :
    (share added (style selectors declarations unique)).1.selectors = (addSelectors selectors added).1 :=
  rfl

theorem share_share (first second : List String) (rule : Rule) :
    (share second (share first rule).1).1 = (share (addSelectors first second).1 rule).1 := by
  cases rule with
  | style selectors declarations unique => simp only [share, addSelectors_assoc]
  | atRule | keyframes => rfl

end Rule

theorem RuleKey.revise_of_gathers {key : RuleKey} (hg : key.Gathers) (rule stored : Rule) :
    (key.revise rule stored).1 = (Rule.share rule.selectors stored).1 := by
  cases key with
  | owned | literal | atRule | keyframes => exact absurd hg id
  | shared | unique => cases rule <;> cases stored <;> rfl

theorem RuleKey.revise_of_not_gathers {key : RuleKey} (hg : ¬ key.Gathers) (hl : ∀ s, key ≠ .literal s)
    (rule stored : Rule) : (key.revise rule stored).1 = stored := by
  cases key with
  | shared | unique => exact absurd trivial hg
  | literal s => exact absurd rfl (hl s)
  | owned | atRule | keyframes => cases rule <;> rfl

/-- The kinds of key under which the rules of a style are merged. -/
def RuleKey.OfStyle : RuleKey → Prop
  | .shared _ | .owned _ _ | .atRule _ _ | .keyframes _ => True
  | _ => False

namespace RuleSet

theorem ofStyle_key (root : String) (rule : Rule) : (rule.key (RuleKey.ofStyle root)).OfStyle := by
  cases rule with
  | atRule | keyframes => trivial
  | style selectors declarations unique =>
    simp only [Rule.key, RuleKey.ofStyle]
    split <;> trivial

variable {rules base : RuleSet} {key other : RuleKey} {rule : Rule}

/-! ## Looking up after a deposit -/

theorem holds_congr (h : key.text = other.text) (slot : Option RuleKey × Rule) :
    holds key slot = holds other slot := by
  rw [holds, holds, h]

theorem find?_of_absent (h : ∀ slot ∈ rules, holds key slot = false) : rules.find? key = none := by
  have hnone : List.find? (holds key) rules = none :=
    List.find?_eq_none.mpr fun slot hs => by rw [h slot hs]; exact Bool.false_ne_true
  rw [find?, hnone]
  rfl

theorem find?_of_present {before after : RuleSet} {slot : Option RuleKey × Rule}
    (hb : ∀ s ∈ before, holds key s = false) (hs : holds key slot = true) :
    RuleSet.find? (before ++ slot :: after) key = some slot.2 := by
  have hnone : List.find? (holds key) before = none :=
    List.find?_eq_none.mpr fun s h => by rw [hb s h]; exact Bool.false_ne_true
  rw [find?, List.find?_append, hnone, List.find?_cons, hs]
  rfl

/-- The rule under the key of a deposit. -/
theorem find?_deposit_self (rules : RuleSet) (key : RuleKey) (rule : Rule) :
    (deposit rules (some key, rule)).1.find? key =
      some (match rules.find? key with
        | some stored => (key.revise rule stored).1
        | none => rule) := by
  rcases absent_or_present rules key with ha | ⟨before, slot, after, rfl, hb, hs⟩
  · rw [deposit, place_of_absent ha, find?_of_absent ha]
    exact find?_of_present ha (holds_eq_true.mpr rfl)
  · rw [deposit, place_of_present hb hs, find?_of_present hb hs]
    exact find?_of_present hb hs

/-- Rules under other keys are not touched. -/
theorem find?_deposit_of_ne (h : key.text ≠ other.text) (rules : RuleSet) (rule : Rule) :
    (deposit rules (some key, rule)).1.find? other = rules.find? other := by
  have hnot : ∀ slot, holds key slot = true → holds other slot = false := by
    rintro ⟨key?, r⟩ hs
    obtain ⟨k, rfl, ht⟩ := exists_key_of_holds hs
    simpa [holds] using fun e => h (ht.symm.trans e)
  rcases absent_or_present rules key with ha | ⟨before, slot, after, rfl, hb, hs⟩
  · have hnew : holds other (some key, rule) = false := hnot _ (holds_eq_true.mpr rfl)
    rw [deposit, place_of_absent ha, find?, find?, List.find?_append, List.find?_cons, hnew]
    cases List.find? (holds other) rules <;> rfl
  · have hold : holds other slot = false := hnot slot hs
    have hrev : holds other (slot.1, (key.revise rule slot.2).1) = false := hold
    rw [deposit, place_of_present hb hs, find?, find?, List.find?_append, List.find?_append,
      List.find?_cons, List.find?_cons, hold, hrev]

/-! ## Splitting a deposit -/

theorem deposit_append_of_absent {first second : RuleSet} (ha : ∀ slot ∈ first, holds key slot = false) :
    (deposit (first ++ second) (some key, rule)).1 = first ++ (deposit second (some key, rule)).1 := by
  rcases absent_or_present second key with hn | ⟨before, slot, after, rfl, hb, hs⟩
  · have hall : ∀ slot ∈ first ++ second, holds key slot = false := by
      intro slot hm
      rcases List.mem_append.mp hm with hm | hm
      · exact ha slot hm
      · exact hn slot hm
    rw [deposit, deposit, place_of_absent hall, place_of_absent hn, List.append_assoc]
  · have hall : ∀ slot ∈ first ++ before, holds key slot = false := by
      intro slot hm
      rcases List.mem_append.mp hm with hm | hm
      · exact ha slot hm
      · exact hb slot hm
    rw [← List.append_assoc, deposit, deposit, place_of_present hall hs, place_of_present hb hs,
      List.append_assoc]

theorem deposit_append_of_present {first second : RuleSet}
    (hp : ∃ slot ∈ first, holds key slot = true) :
    (deposit (first ++ second) (some key, rule)).1 = (deposit first (some key, rule)).1 ++ second := by
  rcases absent_or_present first key with ha | ⟨before, slot, after, rfl, hb, hs⟩
  · obtain ⟨slot, hm, hh⟩ := hp
    rw [ha slot hm] at hh
    cases hh
  · rw [List.append_assoc, List.cons_append, deposit, deposit, place_of_present hb hs,
      place_of_present hb hs, List.append_assoc, List.cons_append]

/-- Whether no rule stands under the key of the slot. -/
def isNew (base : RuleSet) (slot : Option RuleKey × Rule) : Bool :=
  match slot.1 with
  | some key => !base.any (holds key)
  | none => true

theorem isNew_some {slot : Option RuleKey × Rule} (h : slot.1 = some key) :
    isNew base slot = !base.any (holds key) := by
  rw [isNew, h]

theorem isNew_of_holds {slot : Option RuleKey × Rule} (h : holds key slot = true) :
    isNew base slot = !base.any (holds key) := by
  obtain ⟨k, hk, ht⟩ := exists_key_of_holds h
  rw [isNew_some hk]
  have hfun : holds k = holds key := funext fun s => holds_congr ht s
  rw [hfun]

theorem filter_deposit_of_old (h : base.any (holds key) = true) (rules : RuleSet) (rule : Rule) :
    (deposit rules (some key, rule)).1.filter (isNew base) = rules.filter (isNew base) := by
  rcases absent_or_present rules key with ha | ⟨before, slot, after, rfl, hb, hs⟩
  · have hnew : isNew base (some key, rule) = false := by simp [isNew, h]
    rw [deposit, place_of_absent ha, List.filter_append, List.filter_cons_of_neg (by simp [hnew])]
    simp
  · have hold : ¬ isNew base slot = true := by simp [isNew_of_holds hs, h]
    have hrev : ¬ isNew base (slot.1, (key.revise rule slot.2).1) = true := hold
    rw [deposit, place_of_present hb hs, List.filter_append, List.filter_append,
      List.filter_cons_of_neg hold, List.filter_cons_of_neg hrev]

theorem filter_deposit_of_new (h : base.any (holds key) = false) (rules : RuleSet) (rule : Rule) :
    (deposit rules (some key, rule)).1.filter (isNew base) =
      (deposit (rules.filter (isNew base)) (some key, rule)).1 := by
  rcases absent_or_present rules key with ha | ⟨before, slot, after, rfl, hb, hs⟩
  · have hnew : isNew base (some key, rule) = true := by simp [isNew, h]
    have hf : ∀ slot ∈ rules.filter (isNew base), holds key slot = false :=
      fun slot hm => ha slot (List.mem_filter.mp hm).1
    rw [deposit, deposit, place_of_absent ha, place_of_absent hf, List.filter_append,
      List.filter_cons_of_pos hnew]
    rfl
  · have hnew : isNew base slot = true := by simp [isNew_of_holds hs, h]
    have hrev : isNew base (slot.1, (key.revise rule slot.2).1) = true := hnew
    have hf : ∀ s ∈ before.filter (isNew base), holds key s = false :=
      fun s hm => hb s (List.mem_filter.mp hm).1
    rw [deposit, deposit, place_of_present hb hs, List.filter_append, List.filter_append,
      List.filter_cons_of_pos hnew, List.filter_cons_of_pos hrev, place_of_present hf hs]

/-! ## The stored rules -/

/-- A stored rule with the selectors that `fresh` has gathered under its key. -/
def enrich (fresh : RuleSet) (slot : Option RuleKey × Rule) : Option RuleKey × Rule :=
  match slot.1 with
  | some (.shared block) =>
    match fresh.find? (.shared block) with
    | some rule => (slot.1, (Rule.share rule.selectors slot.2).1)
    | none => slot
  | _ => slot

theorem enrich_fst (fresh : RuleSet) (slot : Option RuleKey × Rule) : (enrich fresh slot).1 = slot.1 := by
  unfold enrich
  split
  · split <;> rfl
  · rfl

theorem holds_enrich (fresh : RuleSet) (slot : Option RuleKey × Rule) :
    holds key (enrich fresh slot) = holds key slot := by
  rw [holds, enrich_fst, holds]

theorem enrich_of_shared {fresh : RuleSet} {block : String} {slot : Option RuleKey × Rule}
    (h : slot.1 = some (.shared block)) :
    enrich fresh slot =
      match fresh.find? (.shared block) with
      | some rule => (slot.1, (Rule.share rule.selectors slot.2).1)
      | none => slot := by
  rw [enrich, h]

theorem enrich_of_ne_shared {fresh : RuleSet} {slot : Option RuleKey × Rule}
    (h : ∀ block, slot.1 ≠ some (.shared block)) : enrich fresh slot = slot := by
  unfold enrich
  split
  · next hk => exact absurd hk (h _)
  · rfl

/-- A deposit under another key does not change what a rule is enriched with. -/
theorem enrich_deposit_of_not_holds {slot : Option RuleKey × Rule} (h : holds key slot = false)
    (fresh : RuleSet) (rule : Rule) :
    enrich (deposit fresh (some key, rule)).1 slot = enrich fresh slot := by
  by_cases hs : ∃ block, slot.1 = some (.shared block)
  · obtain ⟨block, hk⟩ := hs
    have hne : key.text ≠ (RuleKey.shared block).text := by
      intro ht
      rw [holds, hk] at h
      simp [ht] at h
    rw [enrich_of_shared hk, enrich_of_shared hk, find?_deposit_of_ne hne]
  · have hs : ∀ block, slot.1 ≠ some (.shared block) := fun block hk => hs ⟨block, hk⟩
    rw [enrich_of_ne_shared hs, enrich_of_ne_shared hs]

theorem mem_of_find?_shared {block : String} (h : rules.find? (.shared block) = some rule) :
    (some (.shared block), rule) ∈ rules := by
  obtain ⟨⟨key?, r⟩, hfind, rfl⟩ := Option.map_eq_some_iff.mp h
  obtain ⟨k, rfl, ht⟩ := exists_key_of_holds (List.find?_some hfind)
  obtain rfl := RuleKey.eq_of_text_shared ht
  exact List.mem_of_find?_eq_some hfind

/-- A deposit revises the enriched rule under its key the way it revises what enriches it. -/
theorem enrich_deposit_of_holds (hk : key.OfStyle) {slot : Option RuleKey × Rule}
    (hs : holds key slot = true) {fresh : RuleSet} (hf : ∀ s ∈ fresh, Fits s) (rule : Rule) :
    enrich (deposit fresh (some key, rule)).1 slot = (slot.1, (key.revise rule (enrich fresh slot).2).1) := by
  obtain ⟨k, hkey, ht⟩ := exists_key_of_holds hs
  by_cases hg : key.Gathers
  · cases key with
    | owned | atRule | keyframes => exact absurd hg id
    | unique | literal => exact absurd hk id
    | shared block =>
      obtain rfl := RuleKey.eq_of_text_shared ht
      have hrev := RuleKey.revise_of_gathers hg
      rw [enrich_of_shared hkey, enrich_of_shared hkey, find?_deposit_self, hrev]
      cases hfind : fresh.find? (.shared block) with
      | none => rfl
      | some stored =>
        have hfits := hf _ (mem_of_find?_shared hfind)
        cases stored with
        | atRule | keyframes => exact absurd hfits id
        | style selectors declarations unique =>
          simp only [hrev, Rule.selectors_share, Rule.share_share]
          rfl
  · have hl : ∀ s, key ≠ .literal s := by
      rintro s rfl
      exact hk
    have hns : ∀ block, slot.1 ≠ some (.shared block) := by
      intro block he
      obtain rfl : k = .shared block := Option.some.inj (hkey.symm.trans he)
      obtain rfl := RuleKey.eq_of_text_shared ht.symm
      exact hg trivial
    rw [enrich_of_ne_shared hns, enrich_of_ne_shared hns, RuleKey.revise_of_not_gathers hg hl]

theorem not_holds_of_nodup {before after : RuleSet} {slot : Option RuleKey × Rule}
    (hn : (keyTexts (before ++ slot :: after)).Nodup) (hs : holds key slot = true) :
    ∀ s ∈ after, holds key s = false := by
  obtain ⟨k, hk, ht⟩ := exists_key_of_holds hs
  intro s hm
  by_cases hh : holds key s = true
  · obtain ⟨k', hk', ht'⟩ := exists_key_of_holds hh
    have hcons : (k.text :: keyTexts after).Nodup := by
      have happ := (List.nodup_append.mp (by simpa [keyTexts] using hn : (keyTexts before ++ keyTexts (slot :: after)).Nodup)).2.1
      simpa [keyTexts, hk] using happ
    have hmem : k.text ∈ keyTexts after := mem_keyTexts.mpr ⟨s, hm, k', hk', ht'.trans ht.symm⟩
    exact absurd hmem (List.nodup_cons.mp hcons).1
  · exact Bool.eq_false_iff.mpr hh

theorem map_enrich_deposit (hk : key.OfStyle) (hn : (keyTexts base).Nodup) {fresh : RuleSet}
    (hf : ∀ s ∈ fresh, Fits s) (hp : ∃ slot ∈ base, holds key slot = true) (rule : Rule) :
    (deposit (base.map (enrich fresh)) (some key, rule)).1 =
      base.map (enrich (deposit fresh (some key, rule)).1) := by
  rcases absent_or_present base key with ha | ⟨before, slot, after, rfl, hb, hs⟩
  · obtain ⟨slot, hm, hh⟩ := hp
    rw [ha slot hm] at hh
    cases hh
  · have hb' : ∀ s ∈ before.map (enrich fresh), holds key s = false := by
      intro s hm
      obtain ⟨t, ht, rfl⟩ := List.mem_map.mp hm
      rw [holds_enrich]
      exact hb t ht
    have hs' : holds key (enrich fresh slot) = true := by rw [holds_enrich]; exact hs
    have hbefore : before.map (enrich (deposit fresh (some key, rule)).1) = before.map (enrich fresh) :=
      List.map_congr_left fun s hm => enrich_deposit_of_not_holds (hb s hm) fresh rule
    have hafter : after.map (enrich (deposit fresh (some key, rule)).1) = after.map (enrich fresh) :=
      List.map_congr_left fun s hm =>
        enrich_deposit_of_not_holds (not_holds_of_nodup hn hs s hm) fresh rule
    rw [List.map_append, List.map_cons, deposit, place_of_present hb' hs', List.map_append,
      List.map_cons, hbefore, hafter, enrich_deposit_of_holds hk hs hf, enrich_fst]

/-- Deposits on stored rules are told by the same deposits on their own. -/
theorem depositAll_onto {xs : List (Option RuleKey × Rule)} (hn : (keyTexts base).Nodup)
    (hx : ∀ x ∈ xs, Fits x ∧ ∃ key, x.1 = some key ∧ key.OfStyle) :
    (depositAll base xs).1 =
      base.map (enrich (depositAll [] xs).1) ++ (depositAll [] xs).1.filter (isNew base) := by
  -- the same with some deposits already made on both sides
  have hgen : ∀ fresh : RuleSet, (∀ s ∈ fresh, Fits s) →
      (depositAll (base.map (enrich fresh) ++ fresh.filter (isNew base)) xs).1 =
        base.map (enrich (depositAll fresh xs).1) ++ (depositAll fresh xs).1.filter (isNew base) := by
    induction xs with
    | nil => exact fun _ _ => rfl
    | cons x rest ih =>
      intro fresh hf
      obtain ⟨hfits, key, hkey, hk⟩ := hx x List.mem_cons_self
      obtain ⟨key?, rule⟩ := x
      obtain rfl : key? = some key := hkey
      have hone : ∀ y ∈ [(some key, rule)], Fits y := fun y hy => List.mem_singleton.mp hy ▸ hfits
      have hf' : ∀ s ∈ (deposit fresh (some key, rule)).1, Fits s := fits_depositAll hf hone
      rw [depositAll_cons, depositAll_cons, ← ih (fun y hy => hx y (List.mem_cons_of_mem _ hy)) _ hf']
      congr 2
      cases hany : base.any (holds key) with
      | true =>
        obtain ⟨slot, hm, hh⟩ := List.any_eq_true.mp hany
        have hp : ∃ slot ∈ base.map (enrich fresh), holds key slot = true :=
          ⟨_, List.mem_map_of_mem hm, by rw [holds_enrich]; exact hh⟩
        rw [deposit_append_of_present hp, map_enrich_deposit hk hn hf ⟨slot, hm, hh⟩,
          filter_deposit_of_old hany]
      | false =>
        have ha : ∀ slot ∈ base, holds key slot = false := fun slot hm =>
          Bool.eq_false_iff.mpr fun hh => by
            rw [List.any_eq_true.mpr ⟨slot, hm, hh⟩] at hany
            cases hany
        have ha' : ∀ slot ∈ base.map (enrich fresh), holds key slot = false := by
          intro slot hm
          obtain ⟨t, ht, rfl⟩ := List.mem_map.mp hm
          rw [holds_enrich]
          exact ha t ht
        have hmap : base.map (enrich (deposit fresh (some key, rule)).1) = base.map (enrich fresh) :=
          List.map_congr_left fun s hm => enrich_deposit_of_not_holds (ha s hm) fresh rule
        rw [deposit_append_of_absent ha', filter_deposit_of_new hany, hmap]
  have hbase : base.map (enrich []) = base := by
    refine (List.map_congr_left fun slot _ => ?_).trans (List.map_id base)
    unfold enrich
    split <;> rfl
  have h := hgen [] fun _ h => absurd h List.not_mem_nil
  rwa [hbase, List.filter_nil, List.append_nil] at h

end RuleSet

end StyleEngine
