import StyleEngine.Proofs.RuleSet.Key

/-!
# Deposits

Compiling a style, merging it and registering anything else all do one thing: they bring slots to a
rule set one after the other. A slot whose key is present revises the rule there, any other slot is
appended (`deposit`). What one deposit does to the stored slots is said by `Extends`, what it does to
the selectors under a shared block by `lists_deposit`, and the run lemmas follow by induction.
-/

namespace StyleEngine

/-- Whether rules that come under the key add their selectors. -/
def RuleKey.Gathers : RuleKey → Prop
  | .shared _ | .unique _ _ => True
  | _ => False

/-- What a rule does to the rule that is stored under its key. -/
def RuleKey.revise (key : RuleKey) (rule : Rule) : Rule → Rule × Bool :=
  match key, rule with
  | .shared _, .style selectors _ _ => Rule.share selectors
  | .unique _ _, .style selectors _ _ => Rule.share selectors
  | .literal _, .style _ declarations _ => Rule.redeclare declarations
  | _, _ => Rule.keep

namespace RuleSet

/-- Brings one slot to a rule set. -/
def deposit (rules : RuleSet) : Option RuleKey × Rule → RuleSet × Bool
  | (none, rule) => (rules.append rule, true)
  | (some key, rule) => place key rule (key.revise rule) rules

/-- Brings slots one after the other. The flag says whether any of them changed the set. -/
def depositAll : RuleSet → List (Option RuleKey × Rule) → RuleSet × Bool
  | rules, [] => (rules, false)
  | rules, slot :: rest =>
    let (rules, changed) := deposit rules slot
    let (rules, changed') := depositAll rules rest
    (rules, changed || changed')

variable {rules : RuleSet} {key : RuleKey} {fresh : Rule} {revise : Rule → Rule × Bool}
  {slot : Option RuleKey × Rule}

theorem depositAll_cons (rules : RuleSet) (slot : Option RuleKey × Rule)
    (rest : List (Option RuleKey × Rule)) :
    (depositAll rules (slot :: rest)).1 = (depositAll (deposit rules slot).1 rest).1 := rfl

theorem depositAll_append (rules : RuleSet) (first second : List (Option RuleKey × Rule)) :
    (depositAll rules (first ++ second)).1 = (depositAll (depositAll rules first).1 second).1 := by
  induction first generalizing rules with
  | nil => rfl
  | cons slot rest ih => exact ih _

/-! ## Placing under a key -/

theorem place_of_absent (h : ∀ slot ∈ rules, holds key slot = false) :
    place key fresh revise rules = (rules ++ [(some key, fresh)], true) := by
  induction rules with
  | nil => rfl
  | cons slot rest ih =>
    have hs : holds key slot = false := h slot List.mem_cons_self
    rw [place, hs, ih fun s hm => h s (List.mem_cons_of_mem _ hm)]
    rfl

theorem place_of_present {before after : RuleSet} (hb : ∀ slot ∈ before, holds key slot = false)
    (hs : holds key slot = true) :
    place key fresh revise (before ++ slot :: after) =
      (before ++ (slot.1, (revise slot.2).1) :: after, (revise slot.2).2) := by
  induction before with
  | nil => simp [place, hs]
  | cons s rest ih =>
    have h : holds key s = false := hb s List.mem_cons_self
    rw [List.cons_append, place, h, ih fun s hm => hb s (List.mem_cons_of_mem _ hm)]
    rfl

/-- A key is absent, or a first slot holds it. -/
theorem absent_or_present (rules : RuleSet) (key : RuleKey) :
    (∀ slot ∈ rules, holds key slot = false) ∨
    ∃ before slot after, rules = before ++ slot :: after ∧
      (∀ s ∈ before, holds key s = false) ∧ holds key slot = true := by
  induction rules with
  | nil => exact .inl fun _ h => absurd h List.not_mem_nil
  | cons s rest ih =>
    cases hs : holds key s with
    | true => exact .inr ⟨[], s, rest, rfl, fun _ h => absurd h List.not_mem_nil, hs⟩
    | false =>
      rcases ih with hn | ⟨before, slot, after, rfl, hb, h⟩
      · refine .inl fun t ht => ?_
        rcases List.mem_cons.mp ht with rfl | ht
        · exact hs
        · exact hn t ht
      · refine .inr ⟨s :: before, slot, after, rfl, fun t ht => ?_, h⟩
        rcases List.mem_cons.mp ht with rfl | ht
        · exact hs
        · exact hb t ht

/-- A rule comes at the end when no slot holds its key, and else meets the rule of the first one that does. -/
theorem place_eq (rules : RuleSet) (key : RuleKey) (fresh : Rule) (revise : Rule → Rule × Bool) :
    (rules.findIdx? (holds key) = none ∧ place key fresh revise rules = (rules ++ [(some key, fresh)], true)) ∨
    ∃ i slot, rules.findIdx? (holds key) = some i ∧ rules[i]? = some slot ∧ holds key slot = true ∧
      place key fresh revise rules = (rules.set i (slot.1, (revise slot.2).1), (revise slot.2).2) := by
  rcases absent_or_present rules key with ha | ⟨before, slot, after, rfl, hb, hs⟩
  · exact .inl ⟨List.findIdx?_eq_none_iff.mpr ha, place_of_absent ha⟩
  · refine .inr ⟨before.length, slot, ?_, by simp, hs, ?_⟩
    · refine List.findIdx?_eq_some_iff_getElem.mpr ⟨by simp, ?_, fun j hj => ?_⟩
      · rw [List.getElem_append_right (Nat.le_refl _)]
        simp only [Nat.sub_self, List.getElem_cons_zero]
        exact hs
      · rw [List.getElem_append_left hj, Bool.not_eq_true]
        exact hb _ (List.getElem_mem hj)
    · rw [place_of_present hb hs]
      simp

theorem holds_eq_true {k : RuleKey} {rule : Rule} :
    holds key (some k, rule) = true ↔ k.text = key.text := by
  simp [holds]

theorem exists_key_of_holds (h : holds key slot = true) : ∃ k, slot.1 = some k ∧ k.text = key.text := by
  obtain ⟨k?, rule⟩ := slot
  cases k? with
  | none => simp [holds] at h
  | some k => exact ⟨k, rfl, holds_eq_true.mp h⟩

end RuleSet

/-! ## Added selectors -/

namespace Rule

variable {selectors added : List String} {s : String}

theorem addSelectors_eq_append (selectors added : List String) :
    ∃ extra, (addSelectors selectors added).1 = selectors ++ extra ∧ ∀ s ∈ extra, s ∈ added := by
  induction added generalizing selectors with
  | nil => exact ⟨[], by simp [addSelectors], fun _ h => h⟩
  | cons a rest ih =>
    unfold addSelectors
    split
    · obtain ⟨extra, he, hm⟩ := ih selectors
      exact ⟨extra, he, fun s hs => List.mem_cons_of_mem _ (hm s hs)⟩
    · obtain ⟨extra, he, hm⟩ := ih (selectors ++ [a])
      refine ⟨a :: extra, by simpa using he, fun s hs => ?_⟩
      rcases List.mem_cons.mp hs with rfl | hs
      · exact List.mem_cons_self
      · exact List.mem_cons_of_mem _ (hm s hs)

theorem mem_addSelectors : s ∈ (addSelectors selectors added).1 ↔ s ∈ selectors ∨ s ∈ added := by
  induction added generalizing selectors with
  | nil => simp [addSelectors]
  | cons a rest ih =>
    unfold addSelectors
    split
    · next ha =>
      have ha : a ∈ selectors := List.contains_iff_mem.mp ha
      rw [ih, List.mem_cons]
      constructor
      · rintro (h | h)
        · exact .inl h
        · exact .inr (.inr h)
      · rintro (h | rfl | h)
        · exact .inl h
        · exact .inl ha
        · exact .inr h
    · rw [ih, List.mem_append, List.mem_singleton, List.mem_cons, or_assoc]

theorem nodup_addSelectors (h : selectors.Nodup) : (addSelectors selectors added).1.Nodup := by
  induction added generalizing selectors with
  | nil => exact h
  | cons a rest ih =>
    unfold addSelectors
    split
    · exact ih h
    · next ha =>
      refine ih (List.nodup_append.mpr ⟨h, by simp, fun x hx y hy => ?_⟩)
      rw [List.mem_singleton.mp hy]
      rintro rfl
      exact ha (List.contains_iff_mem.mpr hx)

/-- Selectors that are all there change nothing. -/
theorem addSelectors_of_subset (h : ∀ s ∈ added, s ∈ selectors) :
    addSelectors selectors added = (selectors, false) := by
  induction added with
  | nil => rfl
  | cons a rest ih =>
    have ha : selectors.contains a = true := List.contains_iff_mem.mpr (h a List.mem_cons_self)
    rw [addSelectors, if_pos ha]
    exact ih fun s hs => h s (List.mem_cons_of_mem _ hs)

end Rule

namespace RuleSet

/-! ## What becomes of a stored slot -/

/-- Shared rules gain selectors, literal rules are declared anew, all others stay. -/
inductive Evolves : Option RuleKey × Rule → Option RuleKey × Rule → Prop
  | same (slot : Option RuleKey × Rule) : Evolves slot slot
  | gather {key : RuleKey} (hk : key.Gathers) (selectors extra : List String)
      (declarations : List Declaration) (unique : Bool) :
      Evolves (some key, .style selectors declarations unique)
        (some key, .style (selectors ++ extra) declarations unique)
  | redeclare (literal : String) (selectors : List String) (old new : List Declaration) (unique : Bool) :
      Evolves (some (.literal literal), .style selectors old unique)
        (some (.literal literal), .style selectors new unique)

theorem Evolves.trans {a b c : Option RuleKey × Rule} (hab : Evolves a b) (hbc : Evolves b c) :
    Evolves a c := by
  cases hab with
  | same => exact hbc
  | gather hk selectors extra declarations unique =>
    cases hbc with
    | same => exact .gather hk selectors extra declarations unique
    | gather hk' _ extra' =>
      rw [List.append_assoc]
      exact .gather hk selectors (extra ++ extra') declarations unique
    | redeclare => exact absurd hk id
  | redeclare literal selectors old new unique =>
    cases hbc with
    | same => exact .redeclare literal selectors old new unique
    | gather hk' => exact absurd hk' id
    | redeclare _ _ _ new' => exact .redeclare literal selectors old new' unique

theorem Evolves.key_eq {a b : Option RuleKey × Rule} (h : Evolves a b) : b.1 = a.1 := by
  cases h <;> rfl

/-- A slot that is neither gathering nor literal stays as it is. -/
theorem Evolves.eq_of_fixed {k : RuleKey} {rule : Rule} {b : Option RuleKey × Rule}
    (h : Evolves (some k, rule) b) (hg : ¬ k.Gathers) (hl : ∀ s, k ≠ .literal s) : b = (some k, rule) := by
  cases h with
  | same => rfl
  | gather hk => exact absurd hk hg
  | redeclare literal => exact absurd rfl (hl literal)

theorem eq_of_text_unique {k : RuleKey} {selector block : String}
    (h : k.text = (RuleKey.unique selector block).text) : ∃ s b, k = .unique s b := by
  rw [RuleKey.text_eq_iff] at h
  cases k with
  | unique s b => exact ⟨s, b, rfl⟩
  | shared | owned | literal | atRule | keyframes => cases h

theorem evolves_revise (hs : holds key slot = true) (rule : Rule) :
    Evolves slot (slot.1, (key.revise rule slot.2).1) := by
  obtain ⟨k, hk, ht⟩ := exists_key_of_holds hs
  obtain ⟨k?, stored⟩ := slot
  obtain rfl : k? = some k := hk
  have hshare : ∀ selectors, k.Gathers →
      Evolves (some k, stored) (some k, (Rule.share selectors stored).1) := by
    intro selectors hg
    cases stored with
    | style old declarations unique =>
      obtain ⟨extra, he, -⟩ := Rule.addSelectors_eq_append old selectors
      simp only [Rule.share, he]
      exact .gather hg old extra declarations unique
    | atRule | keyframes => exact .same _
  cases rule with
  | atRule | keyframes => cases key <;> exact .same _
  | style selectors declarations unique =>
    cases key with
    | shared block =>
      obtain rfl := RuleKey.eq_of_text_shared ht
      exact hshare selectors trivial
    | unique selector block =>
      obtain ⟨s, b, rfl⟩ := eq_of_text_unique ht
      exact hshare selectors trivial
    | literal literal =>
      obtain rfl := RuleKey.eq_of_text_literal ht
      cases stored with
      | style old ds u => exact .redeclare literal old ds (Declaration.replace ds declarations) u
      | atRule | keyframes => exact .same _
    | owned | atRule | keyframes => exact .same _

/-- Every stored slot keeps its position and becomes what `Evolves` allows. -/
def Extends (before after : RuleSet) : Prop :=
  ∀ (i : Nat) slot, before[i]? = some slot → ∃ slot', after[i]? = some slot' ∧ Evolves slot slot'

theorem Extends.refl (rules : RuleSet) : Extends rules rules :=
  fun _ slot h => ⟨slot, h, .same slot⟩

theorem Extends.trans {a b c : RuleSet} (hab : Extends a b) (hbc : Extends b c) : Extends a c := by
  intro i slot h
  obtain ⟨slot', h', he⟩ := hab i slot h
  obtain ⟨slot'', h'', he'⟩ := hbc i slot' h'
  exact ⟨slot'', h'', he.trans he'⟩

theorem Extends.mem {before after : RuleSet} (h : Extends before after) (hs : slot ∈ before) :
    ∃ slot' ∈ after, Evolves slot slot' := by
  obtain ⟨i, hi⟩ := List.mem_iff_getElem?.mp hs
  obtain ⟨slot', h', he⟩ := h i slot hi
  exact ⟨slot', List.mem_of_getElem? h', he⟩

theorem extends_append (rules new : RuleSet) : Extends rules (rules ++ new) := by
  intro i slot h
  refine ⟨slot, ?_, .same slot⟩
  rw [List.getElem?_append_left (List.getElem?_eq_some_iff.mp h).1, h]

theorem extends_deposit (rules : RuleSet) (x : Option RuleKey × Rule) :
    Extends rules (deposit rules x).1 := by
  obtain ⟨key?, rule⟩ := x
  cases key? with
  | none => exact extends_append rules _
  | some key =>
    rcases absent_or_present rules key with ha | ⟨before, slot, after, rfl, hb, hs⟩
    · rw [deposit, place_of_absent ha]
      exact extends_append rules _
    · rw [deposit, place_of_present hb hs]
      intro i s hi
      rcases Nat.lt_trichotomy i before.length with hlt | rfl | hgt
      · rw [List.getElem?_append_left hlt] at hi ⊢
        exact ⟨s, hi, .same s⟩
      · simp only [List.getElem?_append_right (Nat.le_refl _), Nat.sub_self,
          List.getElem?_cons_zero, Option.some.injEq] at hi ⊢
        subst hi
        exact ⟨_, rfl, evolves_revise hs rule⟩
      · obtain ⟨k, rfl⟩ := Nat.exists_eq_add_of_lt hgt
        rw [List.getElem?_append_right (by omega)] at hi ⊢
        rw [show before.length + k + 1 - before.length = k + 1 by omega, List.getElem?_cons_succ] at hi ⊢
        exact ⟨s, hi, .same s⟩

theorem extends_depositAll (rules : RuleSet) (xs : List (Option RuleKey × Rule)) :
    Extends rules (depositAll rules xs).1 := by
  induction xs generalizing rules with
  | nil => exact .refl rules
  | cons x rest ih => exact (extends_deposit rules x).trans (ih _)

/-! ## What a slot holds -/

/-- The rule of a slot is one that its key stands for. -/
def Fits : Option RuleKey × Rule → Prop
  | (none, .style _ _ _) => True
  | (some (.shared block), .style _ declarations unique) =>
    unique = false ∧ Declaration.cssAll declarations = block
  | (some (.unique _ block), .style _ declarations unique) =>
    unique = true ∧ Declaration.cssAll declarations = block
  | (some (.owned selectors block), .style ss declarations _) =>
    Selector.joinList ss = selectors ∧ Declaration.cssAll declarations = block
  | (some (.literal _), .style _ _ _) => True
  | (some (.atRule rule text), .atRule r body) => r = rule ∧ RuleSet.css body = text
  | (some (.keyframes name), .keyframes n _) => n = name
  | _ => False

theorem Evolves.fits {a b : Option RuleKey × Rule} (h : Evolves a b) (ha : Fits a) : Fits b := by
  cases h with
  | same => exact ha
  | @gather key hk =>
    cases key with
    | shared | unique => exact ha
    | owned | literal | atRule | keyframes => exact absurd hk id
  | redeclare => trivial

theorem mem_deposit {x : Option RuleKey × Rule} (h : slot ∈ (deposit rules x).1) :
    (∃ s ∈ rules, Evolves s slot) ∨ slot = x := by
  obtain ⟨key?, rule⟩ := x
  cases key? with
  | none =>
    rcases List.mem_append.mp h with h | h
    · exact .inl ⟨slot, h, .same slot⟩
    · exact .inr (List.mem_singleton.mp h)
  | some key =>
    rw [deposit] at h
    rcases absent_or_present rules key with ha | ⟨before, s, after, rfl, hb, hs⟩
    · rw [place_of_absent ha] at h
      rcases List.mem_append.mp h with h | h
      · exact .inl ⟨slot, h, .same slot⟩
      · exact .inr (List.mem_singleton.mp h)
    · rw [place_of_present hb hs] at h
      left
      rcases List.mem_append.mp h with h | h
      · exact ⟨slot, List.mem_append_left _ h, .same slot⟩
      · rcases List.mem_cons.mp h with rfl | h
        · exact ⟨s, List.mem_append_right _ List.mem_cons_self, evolves_revise hs rule⟩
        · exact ⟨slot, List.mem_append_right _ (List.mem_cons_of_mem _ h), .same slot⟩

/-- Every slot comes from a stored one or from a deposit. -/
theorem mem_depositAll {xs : List (Option RuleKey × Rule)} (h : slot ∈ (depositAll rules xs).1) :
    ∃ s, (s ∈ rules ∨ s ∈ xs) ∧ Evolves s slot := by
  induction xs generalizing rules with
  | nil => exact ⟨slot, .inl h, .same slot⟩
  | cons x rest ih =>
    obtain ⟨s, hs, he⟩ := ih h
    rcases hs with hs | hs
    · rcases mem_deposit hs with ⟨s', hs', he'⟩ | rfl
      · exact ⟨s', .inl hs', he'.trans he⟩
      · exact ⟨s, .inr List.mem_cons_self, he⟩
    · exact ⟨s, .inr (List.mem_cons_of_mem _ hs), he⟩

theorem fits_depositAll {xs : List (Option RuleKey × Rule)} (hr : ∀ s ∈ rules, Fits s)
    (hx : ∀ x ∈ xs, Fits x) : ∀ s ∈ (depositAll rules xs).1, Fits s := by
  intro s hs
  obtain ⟨s', hs', he⟩ := mem_depositAll hs
  rcases hs' with hs' | hs'
  · exact he.fits (hr s' hs')
  · exact he.fits (hx s' hs')

/-- A deposit under a key leaves a slot with that key text. -/
theorem exists_holds_deposit (rules : RuleSet) (key : RuleKey) (rule : Rule) :
    ∃ slot ∈ (deposit rules (some key, rule)).1, holds key slot = true := by
  rcases absent_or_present rules key with ha | ⟨before, s, after, rfl, hb, hs⟩
  · rw [deposit, place_of_absent ha]
    exact ⟨_, List.mem_append_right _ (List.mem_singleton_self _), holds_eq_true.mpr rfl⟩
  · rw [deposit, place_of_present hb hs]
    exact ⟨_, List.mem_append_right _ List.mem_cons_self, hs⟩

/-- The text of a key that was brought is the text of a key ever after. -/
theorem exists_holds_depositAll (rules : RuleSet) {xs : List (Option RuleKey × Rule)} {rule : Rule}
    (hx : (some key, rule) ∈ xs) : ∃ slot ∈ (depositAll rules xs).1, holds key slot = true := by
  induction xs generalizing rules with
  | nil => exact absurd hx List.not_mem_nil
  | cons x rest ih =>
    rcases List.mem_cons.mp hx with rfl | hx
    · obtain ⟨slot, hs, hh⟩ := exists_holds_deposit rules key rule
      obtain ⟨slot', hs', he⟩ := (extends_depositAll _ rest).mem hs
      refine ⟨slot', hs', ?_⟩
      rw [holds, he.key_eq]
      exact hh
    · exact ih _ hx

/-- A clean key that was brought is stored as it is. -/
theorem exists_key_depositAll {xs : List (Option RuleKey × Rule)} {rule : Rule}
    (hx : (some key, rule) ∈ xs) (hk : ∀ k : RuleKey, k.text = key.text → k = key) :
    ∃ r, (some key, r) ∈ (depositAll rules xs).1 := by
  obtain ⟨⟨key?, r⟩, hs, hh⟩ := exists_holds_depositAll rules hx
  obtain ⟨k, rfl, ht⟩ := exists_key_of_holds hh
  exact ⟨r, hk k ht ▸ hs⟩

/-! ## Selectors under a shared block -/

/-- The shared rule of a block lists the selector. -/
def Lists (rules : List (Option RuleKey × Rule)) (block s : String) : Prop :=
  ∃ selectors declarations unique,
    (some (.shared block), Rule.style selectors declarations unique) ∈ rules ∧ s ∈ selectors

theorem lists_append {a b : List (Option RuleKey × Rule)} {block s : String} :
    Lists (a ++ b) block s ↔ Lists a block s ∨ Lists b block s := by
  constructor
  · rintro ⟨ss, ds, u, hm, hs⟩
    rcases List.mem_append.mp hm with hm | hm
    · exact .inl ⟨ss, ds, u, hm, hs⟩
    · exact .inr ⟨ss, ds, u, hm, hs⟩
  · rintro (⟨ss, ds, u, hm, hs⟩ | ⟨ss, ds, u, hm, hs⟩)
    · exact ⟨ss, ds, u, List.mem_append_left _ hm, hs⟩
    · exact ⟨ss, ds, u, List.mem_append_right _ hm, hs⟩

theorem lists_cons {x : Option RuleKey × Rule} {b : List (Option RuleKey × Rule)} {block s : String} :
    Lists (x :: b) block s ↔ Lists [x] block s ∨ Lists b block s :=
  lists_append (a := [x])

/-- A revised slot lists its own selectors and, under the key of the deposit, those of the deposit. -/
theorem lists_revise {rule : Rule} {block s : String} (hf : Fits slot) (hx : Fits (some key, rule))
    (hs : holds key slot = true) :
    Lists [(slot.1, (key.revise rule slot.2).1)] block s ↔
      Lists [slot] block s ∨ Lists [(some key, rule)] block s := by
  obtain ⟨k, hk, ht⟩ := exists_key_of_holds hs
  obtain ⟨k?, stored⟩ := slot
  obtain rfl : k? = some k := hk
  by_cases hkey : key = .shared block
  · subst hkey
    obtain rfl := RuleKey.eq_of_text_shared ht
    cases stored with
    | atRule | keyframes => exact absurd hf id
    | style old ds u =>
      cases rule with
      | atRule | keyframes => exact absurd hx id
      | style new ds' u' =>
        simp [Lists, RuleKey.revise, Rule.share, Rule.mem_addSelectors]
  · have hk : k ≠ .shared block := by
      rintro rfl
      exact hkey (RuleKey.eq_of_text_shared ht.symm)
    simp [Lists, Ne.symm hk, Ne.symm hkey]

theorem lists_deposit {x : Option RuleKey × Rule} {block s : String} (hr : ∀ s ∈ rules, Fits s)
    (hx : Fits x) :
    Lists (deposit rules x).1 block s ↔ Lists rules block s ∨ Lists [x] block s := by
  obtain ⟨key?, rule⟩ := x
  cases key? with
  | none => exact lists_append
  | some key =>
    rw [deposit]
    rcases absent_or_present rules key with ha | ⟨before, slot, after, rfl, hb, hs⟩
    · rw [place_of_absent ha]
      exact lists_append
    · have hf : Fits slot := hr slot (List.mem_append_right _ List.mem_cons_self)
      rw [place_of_present hb hs, lists_append, lists_append, lists_cons, lists_revise hf hx hs,
        lists_cons (x := slot) (b := after)]
      simp only [or_assoc, or_comm (b := Lists after block s)]

/-- After a run of deposits a shared rule lists exactly what was brought under its block. -/
theorem lists_depositAll {xs : List (Option RuleKey × Rule)} {block s : String}
    (hr : ∀ s ∈ rules, Fits s) (hx : ∀ x ∈ xs, Fits x) :
    Lists (depositAll rules xs).1 block s ↔ Lists rules block s ∨ Lists xs block s := by
  induction xs generalizing rules with
  | nil => simp [depositAll, Lists]
  | cons x rest ih =>
    have hx₀ : Fits x := hx x List.mem_cons_self
    have hone : ∀ y ∈ [x], Fits y := fun y hy => List.mem_singleton.mp hy ▸ hx₀
    have hr' : ∀ s ∈ (deposit rules x).1, Fits s := fits_depositAll hr hone
    rw [depositAll_cons, ih hr' fun y hy => hx y (List.mem_cons_of_mem _ hy), lists_deposit hr hx₀,
      lists_cons (x := x) (b := rest), or_assoc]

/-! ## Keys are distinct -/

/-- The texts of the keys of a rule set. -/
def keyTexts (rules : RuleSet) : List String := rules.filterMap fun slot => slot.1.map RuleKey.text

theorem mem_keyTexts {text : String} :
    text ∈ keyTexts rules ↔ ∃ slot ∈ rules, ∃ k, slot.1 = some k ∧ k.text = text := by
  simp [keyTexts, List.mem_filterMap]

theorem keyTexts_nodup_deposit {x : Option RuleKey × Rule} (h : (keyTexts rules).Nodup) :
    (keyTexts (deposit rules x).1).Nodup := by
  obtain ⟨key?, rule⟩ := x
  cases key? with
  | none => simpa [deposit, RuleSet.append, keyTexts] using h
  | some key =>
    rw [deposit]
    rcases absent_or_present rules key with ha | ⟨before, slot, after, rfl, hb, hs⟩
    · rw [place_of_absent ha]
      have hn : key.text ∉ keyTexts rules := by
        intro hm
        obtain ⟨slot, hs, k, hk, ht⟩ := mem_keyTexts.mp hm
        have hh : holds key slot = true := by
          obtain ⟨k?, r⟩ := slot
          obtain rfl : k? = some k := hk
          exact holds_eq_true.mpr ht
        rw [ha slot hs] at hh
        cases hh
      simp only [keyTexts, List.filterMap_append, List.filterMap_cons, Option.map_some,
        List.filterMap_nil]
      refine List.nodup_append.mpr ⟨h, by simp, fun a hma b hmb => ?_⟩
      rw [List.mem_singleton.mp hmb]
      rintro rfl
      exact hn hma
    · rw [place_of_present hb hs]
      simpa [keyTexts, List.filterMap_append, List.filterMap_cons] using h

theorem keyTexts_nodup_depositAll {xs : List (Option RuleKey × Rule)} (h : (keyTexts rules).Nodup) :
    (keyTexts (depositAll rules xs).1).Nodup := by
  induction xs generalizing rules with
  | nil => exact h
  | cons x rest ih => exact ih (keyTexts_nodup_deposit h)

/-- With distinct keys, one key has one place. -/
theorem position_unique {a b : Rule} {i j : Nat} (h : (keyTexts rules).Nodup)
    (hi : rules[i]? = some (some key, a)) (hj : rules[j]? = some (some key, b)) : i = j := by
  have hpairs := List.pairwise_iff_getElem.mp (List.pairwise_filterMap.mp h)
  obtain ⟨hilt, hi⟩ := List.getElem?_eq_some_iff.mp hi
  obtain ⟨hjlt, hj⟩ := List.getElem?_eq_some_iff.mp hj
  have hkeyi : rules[i].1.map RuleKey.text = some key.text := by rw [hi]; rfl
  have hkeyj : rules[j].1.map RuleKey.text = some key.text := by rw [hj]; rfl
  rcases Nat.lt_trichotomy i j with hlt | rfl | hlt
  · exact absurd rfl (hpairs i j hilt hjlt hlt _ hkeyi _ hkeyj)
  · rfl
  · exact absurd rfl (hpairs j i hjlt hilt hlt _ hkeyj _ hkeyi)

/-- With distinct keys, one key has one rule. -/
theorem rule_unique (h : (keyTexts rules).Nodup) {a b : Rule} (ha : (some key, a) ∈ rules)
    (hb : (some key, b) ∈ rules) : a = b := by
  obtain ⟨i, hi⟩ := List.mem_iff_getElem?.mp ha
  obtain ⟨j, hj⟩ := List.mem_iff_getElem?.mp hb
  obtain rfl := position_unique h hi hj
  exact (Prod.mk.inj (Option.some.inj (hi.symm.trans hj))).2

end RuleSet

end StyleEngine
