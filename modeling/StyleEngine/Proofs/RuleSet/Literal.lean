import StyleEngine.Proofs.Declaration.Group
import StyleEngine.Proofs.RuleSet.Outline

/-!
# Literal rules

Rules for one literal selector meet twice, first among the rules of one registration and then in the
registry. It makes no difference whether they are gathered first (`depositAll_gathered`). The rule of
a selector stays where it was put, and each deposit for the selector replaces properties of it
(`Stands.depositAll`).
-/

namespace StyleEngine

/-- The declarations of a style rule are sorted. -/
def Rule.Sorted : Rule → Prop
  | style _ declarations _ => Declaration.Sorted declarations
  | _ => True

namespace RuleSet

variable {rules : RuleSet} {xs : List (Option RuleKey × Rule)} {key : RuleKey} {rule : Rule}

/-! ## Gathering first -/

/-- A sorted rule that is not void, under the key under which literal rules are merged. -/
structure Settled (slot : Option RuleKey × Rule) : Prop where
  filled : slot.2.isVoid = false
  key_eq : slot.1 = some (slot.2.key RuleKey.ofLiteral)
  sorted : slot.2.Sorted

theorem settled_revise {slot : Option RuleKey × Rule} (hx : Settled (some key, rule)) (hs : Settled slot) :
    Settled (slot.1, (key.revise rule slot.2).1) := by
  obtain rfl : key = rule.key RuleKey.ofLiteral := Option.some.inj hx.key_eq
  obtain ⟨key?, stored⟩ := slot
  cases rule with
  | atRule | keyframes => exact hs
  | style selectors new unique =>
    cases stored with
    | atRule | keyframes => exact hs
    | style ss old u => exact ⟨hs.filled, hs.key_eq, Declaration.sorted_replace old new⟩

theorem settled_slotOf? {node : FlatNode} {slot : Option RuleKey × Rule} (h : slotOf? .bySelector node = some slot) :
    Settled slot := by
  cases slotOf_of_some h with
  | @rule selector declarations unique =>
    have hjoin : Selector.joinList [selector] = selector := String.intercalate_singleton
    exact ⟨rfl, by rw [Rule.key, RuleKey.ofLiteral, hjoin]; rfl, Declaration.sorted_sort declarations⟩
  | atRule rule hbody => exact ⟨by simpa [Rule.isVoid] using hbody, rfl, trivial⟩

theorem settled_depositAll (hr : ∀ s ∈ rules, Settled s) (hx : ∀ x ∈ xs, Settled x) :
    ∀ s ∈ (depositAll rules xs).1, Settled s :=
  depositAll_induction (fun _ _ _ hrule hs => settled_revise hrule hs) hr hx

theorem settled_filterMap (nodes : List FlatNode) :
    ∀ x ∈ nodes.filterMap (slotOf? .bySelector), Settled x := by
  intro x hx
  obtain ⟨node, -, hslot⟩ := List.mem_filterMap.mp hx
  exact settled_slotOf? hslot

theorem rekey_of_settled {compiled : RuleSet} (h : ∀ s ∈ compiled, Settled s) :
    rekey RuleKey.ofLiteral compiled = compiled := by
  have hkept : (compiled.filter fun slot => !slot.2.isVoid) = compiled :=
    List.filter_eq_self.mpr fun s hs => by rw [(h s hs).filled]; rfl
  rw [rekey, hkept]
  refine (List.map_congr_left fun s hs => ?_).trans (List.map_id compiled)
  rw [← (h s hs).key_eq]
  rfl

theorem settled_ofNodes (nodes : List FlatNode) : ∀ slot ∈ ofNodes .bySelector nodes, Settled slot := by
  rw [ofNodes_eq_depositAll]
  exact settled_depositAll (fun _ h => absurd h List.not_mem_nil) (settled_filterMap nodes)

theorem rekey_ofNodes (nodes : List FlatNode) :
    rekey RuleKey.ofLiteral (ofNodes .bySelector nodes) = ofNodes .bySelector nodes :=
  rekey_of_settled (settled_ofNodes nodes)

theorem redeclare_redeclare (first second : List Declaration) (rule : Rule) :
    (Rule.redeclare second (Rule.redeclare first rule).1).1 =
      (Rule.redeclare (Declaration.replace first second) rule).1 := by
  cases rule with
  | atRule | keyframes => rfl
  | style selectors declarations unique => simp only [Rule.redeclare, Declaration.replace_replace]

/-- Two rules for one selector can be merged before they come. -/
theorem deposit_deposit_of_literal (rules : RuleSet) (s : String) (selectors selectors' : List String)
    (first second : List Declaration) (unique unique' : Bool) :
    (deposit (deposit rules (some (.literal s), .style selectors first unique)).1
        (some (.literal s), .style selectors' second unique')).1 =
      (deposit rules (some (.literal s), .style selectors (Declaration.replace first second) unique)).1 := by
  have hself : ∀ r : Rule, holds (.literal s) (some (.literal s), r) = true := fun _ => holds_eq_true.mpr rfl
  rcases absent_or_present rules (.literal s) with ha | ⟨before, slot, after, rfl, hb, hs⟩
  · rw [deposit, deposit, deposit, place_of_absent ha, place_of_absent ha, place_of_present ha (hself _)]
    rfl
  · have hs' : ∀ r : Rule, holds (.literal s) (slot.1, r) = true := fun _ => hs
    rw [deposit, deposit, deposit, place_of_present hb hs, place_of_present hb hs, place_of_present hb (hs' _)]
    simp only [RuleKey.revise, redeclare_redeclare]

/-- A rule that is dropped where its key is present is dropped after a rule under that key. -/
theorem deposit_revised_of_fixed (hg : ¬ key.Gathers) (hl : ∀ s, key ≠ .literal s) {k : RuleKey}
    (ht : k.text = key.text) (stored : Rule) (rules : RuleSet) :
    (deposit (deposit rules (some k, stored)).1 (some key, rule)).1 =
      (deposit rules (some k, (key.revise rule stored).1)).1 := by
  obtain ⟨other, hm, ho⟩ := exists_holds_deposit rules k stored
  have hpresent := (holds_congr ht other).symm.trans ho
  have habs : Absorbs (deposit rules (some k, stored)).1 (some key, rule) :=
    absorbs_of_present hg hl ⟨other, hm, hpresent⟩
  rw [RuleKey.revise_of_not_gathers hg hl, habs]

/-- A settled rule can be revised by the next one before it comes. -/
theorem deposit_revised {slot : Option RuleKey × Rule} (hs : Settled slot) (hx : Settled (some key, rule))
    (hh : holds key slot = true) (rules : RuleSet) :
    (deposit (deposit rules slot).1 (some key, rule)).1 =
      (deposit rules (slot.1, (key.revise rule slot.2).1)).1 := by
  obtain ⟨key?, stored⟩ := slot
  obtain ⟨k, rfl, ht⟩ := exists_key_of_holds hh
  obtain rfl : key = rule.key RuleKey.ofLiteral := Option.some.inj hx.key_eq
  cases rule with
  | style selectors' second unique' =>
    obtain rfl := RuleKey.eq_of_text_literal ht
    cases stored with
    | atRule | keyframes => cases hs.key_eq
    | style selectors first unique =>
      exact deposit_deposit_of_literal rules _ selectors selectors' first second unique unique'
  | atRule | keyframes => exact deposit_revised_of_fixed id (fun _ h => by cases h) ht stored rules

/-- Making one more deposit before all are merged is merging them and making it then. -/
theorem depositAll_deposit {compiled : RuleSet} (hn : (keyTexts compiled).Nodup) (hc : ∀ s ∈ compiled, Settled s)
    {x : Option RuleKey × Rule} (hx : Settled x) (rules : RuleSet) :
    (depositAll rules (deposit compiled x).1).1 = (deposit (depositAll rules compiled).1 x).1 := by
  obtain ⟨key?, rule⟩ := x
  obtain rfl : key? = some (rule.key RuleKey.ofLiteral) := hx.key_eq
  rcases absent_or_present compiled (rule.key RuleKey.ofLiteral) with ha | ⟨before, slot, after, rfl, hb, hs⟩
  · rw [deposit, place_of_absent ha, depositAll_append]
    rfl
  · obtain ⟨k, hk, ht⟩ := exists_key_of_holds hs
    have hslot : Settled slot := hc slot (List.mem_append_right _ List.mem_cons_self)
    have hafter := not_holds_of_nodup hn hs
    rw [deposit, place_of_present hb hs, depositAll_append, depositAll_cons, depositAll_append, depositAll_cons,
      ← deposit_revised hslot hx hs]
    refine (deposit_depositAll_comm ?_ hafter).symm
    obtain ⟨k?, stored⟩ := slot
    obtain rfl : k? = some k := hk
    obtain ⟨other, hm, ho⟩ := exists_holds_deposit (depositAll rules before).1 k stored
    exact ⟨other, hm, (holds_congr ht other).symm.trans ho⟩

/-- Settled rules may be gathered before they are merged. -/
theorem depositAll_gathered {compiled : RuleSet} (hn : (keyTexts compiled).Nodup) (hc : ∀ s ∈ compiled, Settled s)
    (hx : ∀ x ∈ xs, Settled x) (rules : RuleSet) :
    (depositAll rules (depositAll compiled xs).1).1 = (depositAll (depositAll rules compiled).1 xs).1 := by
  induction xs generalizing compiled with
  | nil => rfl
  | cons x rest ih =>
    have hfirst : Settled x := hx x List.mem_cons_self
    have hone : ∀ y ∈ [x], Settled y := fun y hy => List.mem_singleton.mp hy ▸ hfirst
    have hc' : ∀ s ∈ (deposit compiled x).1, Settled s := settled_depositAll hc hone
    rw [depositAll_cons, ih (keyTexts_nodup_deposit hn) hc' fun y hy => hx y (List.mem_cons_of_mem _ hy),
      depositAll_deposit hn hc hfirst, depositAll_cons]

/-- Merging the rules of nodes is depositing what the nodes stand for, one by one. -/
theorem mergeLiteral_ofNodes (rules : RuleSet) (nodes : List FlatNode) :
    (mergeLiteral rules (ofNodes .bySelector nodes)).1 =
      (depositAll rules (nodes.filterMap (slotOf? .bySelector))).1 := by
  rw [mergeLiteral_eq_depositAll, rekey_ofNodes, ofNodes_eq_depositAll]
  have hnodup : (keyTexts []).Nodup := List.nodup_nil
  exact depositAll_gathered hnodup (fun _ h => absurd h List.not_mem_nil) (settled_filterMap nodes) rules

/-! ## Merging again -/

theorem absorbs_of_find? {stored : Rule} (h : rules.find? key = some stored)
    (hflag : (key.revise rule stored).2 = false) : Absorbs rules (some key, rule) := by
  rcases absent_or_present rules key with ha | ⟨before, slot, after, rfl, hb, hs⟩
  · rw [find?_of_absent ha] at h
    cases h
  · rw [find?_of_present hb hs] at h
    obtain rfl := Option.some.inj h
    exact absorbs_iff.mpr ⟨before, slot, after, rfl, hb, hs, hflag⟩

theorem find?_depositAll_of_ne (h : ∀ x ∈ xs, holds key x = false) (rules : RuleSet) :
    (depositAll rules xs).1.find? key = rules.find? key := by
  induction xs generalizing rules with
  | nil => rfl
  | cons x rest ih =>
    rw [depositAll_cons, ih fun y hy => h y (List.mem_cons_of_mem _ hy)]
    obtain ⟨key?, rule⟩ := x
    have hx : holds key (key?, rule) = false := h _ List.mem_cons_self
    cases key? with
    | none =>
      rw [deposit, RuleSet.append, find?, find?, List.find?_append, List.find?_cons, hx]
      cases List.find? (holds key) rules <;> rfl
    | some k =>
      exact find?_deposit_of_ne (fun ht => Bool.false_ne_true (hx.symm.trans (holds_eq_true.mpr ht))) rules rule

/-- Declaring anew what was just declared changes nothing. -/
theorem redeclare_flag {new : List Declaration} (hs : Declaration.Sorted new) (selectors : List String)
    (unique : Bool) (stored? : Option Rule) :
    (Rule.redeclare new (match stored? with
      | some stored => (Rule.redeclare new stored).1
      | none => .style selectors new unique)).2 = false := by
  cases stored? with
  | none => simp [Rule.redeclare, Declaration.replace_self hs]
  | some stored =>
    cases stored with
    | atRule | keyframes => rfl
    | style ss old u => simp [Rule.redeclare, Declaration.replace_replace_self]

/-- Settled rules that were merged are absorbed when they are merged again. -/
theorem absorbs_of_merged {compiled : RuleSet} (hn : (keyTexts compiled).Nodup) (hc : ∀ s ∈ compiled, Settled s)
    (rules : RuleSet) : ∀ x ∈ compiled, Absorbs (depositAll rules compiled).1 x := by
  rintro ⟨key?, rule⟩ hx
  have hsettled : Settled (key?, rule) := hc _ hx
  obtain rfl : key? = some (rule.key RuleKey.ofLiteral) := hsettled.key_eq
  have hpresent := exists_holds_depositAll rules hx
  cases rule with
  | atRule | keyframes => exact absorbs_of_present id (fun _ h => by cases h) hpresent
  | style selectors new unique =>
    obtain ⟨before, after, rfl⟩ := List.append_of_mem hx
    have hafter : ∀ s ∈ after, holds (.literal (Selector.joinList selectors)) s = false :=
      not_holds_of_nodup hn (holds_eq_true.mpr rfl)
    have hfind := find?_deposit_self (depositAll rules before).1 (.literal (Selector.joinList selectors))
      (.style selectors new unique)
    rw [← find?_depositAll_of_ne hafter (deposit _ _).1, ← depositAll_cons, ← depositAll_append] at hfind
    exact absorbs_of_find? hfind (redeclare_flag hsettled.sorted selectors unique _)

/-! ## The rule of a selector -/

theorem holds_literal {s : String} {slot : Option RuleKey × Rule} :
    holds (.literal s) slot = true ↔ slot.1 = some (.literal s) := by
  constructor
  · intro h
    obtain ⟨k, hk, ht⟩ := exists_key_of_holds h
    rw [hk, RuleKey.eq_of_text_literal ht]
  · intro h
    obtain ⟨key?, rule⟩ := slot
    obtain rfl : key? = some (.literal s) := h
    exact holds_eq_true.mpr rfl

theorem not_holds_literal {s : String} {slot : Option RuleKey × Rule} :
    holds (.literal s) slot = false ↔ slot.1 ≠ some (.literal s) := by
  rw [← Bool.not_eq_true, holds_literal]

/-- The declarations that a slot brings for a literal selector, if it is one. -/
def broughtFor (s : String) : Option RuleKey × Rule → List (List Declaration)
  | (key?, .style _ declarations _) => if key? = some (.literal s) then [declarations] else []
  | _ => []

theorem broughtFor_self (s : String) (selectors : List String) (declarations : List Declaration) (unique : Bool) :
    broughtFor s (some (.literal s), .style selectors declarations unique) = [declarations] := if_pos rfl

theorem broughtFor_of_ne {s : String} {slot : Option RuleKey × Rule} (h : slot.1 ≠ some (.literal s)) :
    broughtFor s slot = [] := by
  obtain ⟨key?, rule⟩ := slot
  cases rule with
  | atRule | keyframes => rfl
  | style selectors declarations unique => exact if_neg h

/-- One rule stands for the literal selector, with the given declarations and behind rules with the
given keys. -/
def Stands (s : String) (declarations : List Declaration) (keys : List (Option RuleKey)) (rules : RuleSet) :
    Prop :=
  ∃ front rest, rules = front ++ (some (.literal s), .style [s] declarations false) :: rest ∧
    front.map Prod.fst = keys ∧ (∀ slot ∈ front, slot.1 ≠ some (.literal s)) ∧
    ∀ slot ∈ rest, slot.1 ≠ some (.literal s)

variable {s : String} {declarations : List Declaration} {keys : List (Option RuleKey)}

/-- A deposit keeps the keys that are there. -/
theorem keys_deposit_of_present (hp : ∃ slot ∈ rules, holds key slot = true) :
    (deposit rules (some key, rule)).1.map Prod.fst = rules.map Prod.fst := by
  rcases absent_or_present rules key with ha | ⟨before, slot, after, rfl, hb, hs⟩
  · obtain ⟨slot, hm, hh⟩ := hp
    rw [ha slot hm] at hh
    cases hh
  · rw [deposit, place_of_present hb hs]
    simp

/-- The rule stays in its place, and a deposit for its selector replaces properties of it. -/
theorem Stands.deposit (h : Stands s declarations keys rules) (x : Option RuleKey × Rule) :
    Stands s ((broughtFor s x).foldl Declaration.replace declarations) keys (deposit rules x).1 := by
  obtain ⟨front, rest, rfl, hkeys, hfront, hrest⟩ := h
  obtain ⟨key?, rule⟩ := x
  by_cases hx : key? = some (.literal s)
  · subst hx
    have hself : holds (.literal s) (some (.literal s), .style [s] declarations false) = true :=
      holds_literal.mpr rfl
    rw [RuleSet.deposit, place_of_present (fun slot hm => not_holds_literal.mpr (hfront slot hm)) hself]
    cases rule with
    | atRule | keyframes => exact ⟨front, rest, rfl, hkeys, hfront, hrest⟩
    | style selectors new unique =>
      rw [broughtFor_self]
      exact ⟨front, rest, rfl, hkeys, hfront, hrest⟩
  rw [broughtFor_of_ne hx]
  cases key? with
  | none =>
    refine ⟨front, rest ++ [(none, rule)], ?_, hkeys, hfront, fun slot hm => ?_⟩
    · exact List.append_assoc ..
    · rcases List.mem_append.mp hm with hm | hm
      · exact hrest slot hm
      · rw [List.mem_singleton.mp hm]
        exact hx
  | some key =>
    by_cases hp : ∃ slot ∈ front, holds key slot = true
    · refine ⟨_, rest, deposit_append_of_present hp, ?_, fun slot hm he => ?_, hrest⟩
      · rw [keys_deposit_of_present hp, hkeys]
      · have hkey := List.mem_map_of_mem (f := Prod.fst) hm
        rw [keys_deposit_of_present hp] at hkey
        obtain ⟨old, hold, hfst⟩ := List.mem_map.mp hkey
        exact hfront old hold (hfst.trans he)
    · have ha : ∀ slot ∈ front, holds key slot = false := fun slot hm =>
        Bool.eq_false_iff.mpr fun hh => hp ⟨slot, hm, hh⟩
      have hother : ¬ holds key (some (.literal s), .style [s] declarations false) = true := fun hh =>
        hx (congrArg some (RuleKey.eq_of_text_literal (holds_eq_true.mp hh).symm))
      refine ⟨front, (RuleSet.deposit rest (some key, rule)).1, ?_, hkeys, hfront, fun slot hm => ?_⟩
      · rw [deposit_append_of_absent ha, deposit_cons, if_neg hother]
        rfl
      · rcases mem_deposit hm with ⟨old, hold, hev⟩ | rfl
        · rw [hev.key_eq]
          exact hrest old hold
        · exact hx

theorem Stands.depositAll (h : Stands s declarations keys rules) (xs : List (Option RuleKey × Rule)) :
    Stands s ((xs.flatMap (broughtFor s)).foldl Declaration.replace declarations) keys (depositAll rules xs).1 := by
  induction xs generalizing rules declarations with
  | nil => exact h
  | cons x rest ih =>
    rw [List.flatMap_cons, List.foldl_append]
    exact ih (h.deposit x)

/-- The first rule for a selector is put behind the rules that are there. -/
theorem stands_of_new (h : ∀ slot ∈ rules, slot.1 ≠ some (.literal s)) (declarations : List Declaration) :
    Stands s declarations (rules.map Prod.fst)
      (RuleSet.deposit rules (some (.literal s), .style [s] declarations false)).1 := by
  rw [RuleSet.deposit, place_of_absent fun slot hm => not_holds_literal.mpr (h slot hm)]
  exact ⟨rules, [], rfl, rfl, h, fun _ hm => absurd hm List.not_mem_nil⟩

end RuleSet

end StyleEngine
