import StyleEngine.Proofs.Registry.Kept
import StyleEngine.Proofs.Registry.Literal
import StyleEngine.Proofs.RuleSet.Onto

/-!
# What a registration may touch

Every stored rule keeps its position, and a registration revises only rules that it has a part in
(`Revises`): a style adds selectors to the shared rule of one of its root blocks, a literal rule declares
the rules of its own selectors anew. At-rules, keyframes, font faces, unique rules and rules that belong
to one style outlast every run as they are (`registration_touches_own`).
-/

namespace StyleEngine

namespace RuleSet

variable {rules : RuleSet} {slot : Option RuleKey × Rule} {i : Nat}

/-- A deposit leaves the slot at a position as it is, or revises it because it comes under its key. -/
theorem getElem?_deposit (h : rules[i]? = some slot) (x : Option RuleKey × Rule) :
    (deposit rules x).1[i]? = some slot ∨
    ∃ key rule, x = (some key, rule) ∧ holds key slot = true ∧
      (deposit rules x).1[i]? = some (slot.1, (key.revise rule slot.2).1) := by
  obtain ⟨hi, -⟩ := List.getElem?_eq_some_iff.mp h
  have happend : ∀ fresh : Option RuleKey × Rule, (rules ++ [fresh])[i]? = some slot := fun fresh => by
    rw [List.getElem?_append_left hi, h]
  obtain ⟨key?, rule⟩ := x
  cases key? with
  | none => exact .inl (happend _)
  | some key =>
    rw [deposit]
    rcases place_eq rules key rule (key.revise rule) with ⟨-, hnew⟩ | ⟨j, stored, -, hj, hholds, hplace⟩
    · rw [hnew]
      exact .inl (happend _)
    · rw [hplace]
      by_cases hij : j = i
      · subst hij
        obtain rfl : slot = stored := Option.some.inj (h.symm.trans hj)
        exact .inr ⟨key, rule, rfl, hholds, List.getElem?_set_self hi⟩
      · rw [List.getElem?_set_ne hij]
        exact .inl h

/-- A rule under the key of a literal selector lists that selector alone. -/
def Plain : Option RuleKey × Rule → Prop
  | (some (.literal s), rule) => ∃ declarations, rule = .style [s] declarations false
  | _ => True

theorem plain_of_ne_literal (h : ∀ s, slot.1 ≠ some (.literal s)) : Plain slot := by
  obtain ⟨key?, rule⟩ := slot
  cases key? with
  | none => trivial
  | some key =>
    cases key with
    | literal s => exact absurd rfl (h s)
    | shared | unique | owned | atRule | keyframes => trivial

theorem Evolves.plain {a b : Option RuleKey × Rule} (h : Evolves a b) (ha : Plain a) : Plain b := by
  cases h with
  | same => exact ha
  | gather hk =>
    refine plain_of_ne_literal fun s he => ?_
    obtain rfl := Option.some.inj he
    exact absurd hk id
  | redeclare s selectors old new unique =>
    obtain ⟨declarations, he⟩ := ha
    obtain ⟨rfl, -, rfl⟩ := Rule.style.inj he
    exact ⟨new, rfl⟩

theorem plain_depositAll {xs : List (Option RuleKey × Rule)} (hr : ∀ s ∈ rules, Plain s)
    (hx : ∀ x ∈ xs, Plain x) : ∀ s ∈ (depositAll rules xs).1, Plain s := by
  intro s hs
  obtain ⟨s', hs' | hs', he⟩ := mem_depositAll hs
  · exact he.plain (hr s' hs')
  · exact he.plain (hx s' hs')

theorem plain_slotOf? {node : FlatNode} (h : slotOf? .bySelector node = some slot) : Plain slot := by
  cases slotOf_of_some h with
  | @rule selector declarations unique => exact ⟨Declaration.sort declarations, by simp⟩
  | atRule => trivial

end RuleSet

namespace Registry

variable {xs ys : List Registration} {x : Registration} {slot slot' : Option RuleKey × Rule} {i : Nat}

/-- What a registration may make of a stored slot. No case changes the key of a rule or its kind. -/
inductive Revises : Registration → Option RuleKey × Rule → Option RuleKey × Rule → Prop
  | same (x : Registration) (slot : Option RuleKey × Rule) : Revises x slot slot
  /-- A style adds selectors of its root blocks with the same declarations. -/
  | gather {d : Description} {debug : Bool} {block : String} {extra : List String} (selectors : List String)
      {declarations : List Declaration} (hblock : Declaration.cssAll declarations = block) (hne : extra ≠ [])
      (hown : ∀ s ∈ extra, ∃ own, SharesBlock [.style d debug] block own ∧ s ∈ own) :
      Revises (.style d debug) (some (.shared block), .style selectors declarations false)
        (some (.shared block), .style (selectors ++ extra) declarations false)
  /-- A literal rule declares something for a selector that is there. -/
  | redeclare {selector s : String} {d : Description} {style : NormalStyle} {own : List Declaration}
      {unique : Bool} (hd : d.normalize false = .ok style) (hown : .rule s own unique ∈ literalNodes selector style)
      (hne : own ≠ []) (old new : List Declaration) :
      Revises (.rule selector d) (some (.literal s), .style [s] old false) (some (.literal s), .style [s] new false)

theorem Revises.trans {a b c : Option RuleKey × Rule} (hab : Revises x a b) (hbc : Revises x b c) :
    Revises x a c := by
  cases hab with
  | same => exact hbc
  | gather selectors hblock hne hown =>
    cases hbc with
    | same => exact .gather selectors hblock hne hown
    | gather _ _ _ hmore =>
      rw [List.append_assoc]
      refine .gather selectors hblock (by simp [hne]) fun s hs => ?_
      rcases List.mem_append.mp hs with hs | hs
      · exact hown s hs
      · exact hmore s hs
  | redeclare hd hown hne old new =>
    cases hbc with
    | same => exact .redeclare hd hown hne old new
    | redeclare _ _ _ _ newer => exact .redeclare hd hown hne old newer

/-- Rules that no registration changes: at-rules, keyframes, unique rules, those that belong to their
own selectors, and those without a key, which are font faces. -/
inductive Lasting : Option RuleKey × Rule → Prop
  | atRule (key? : Option RuleKey) (rule : String) (body : RuleSet) : Lasting (key?, .atRule rule body)
  | keyframes (key? : Option RuleKey) (name : String) (frames : List (String × List Declaration)) :
      Lasting (key?, .keyframes name frames)
  | unique (key? : Option RuleKey) (selectors : List String) (declarations : List Declaration) :
      Lasting (key?, .style selectors declarations true)
  | owned (selectors block : String) (rule : Rule) : Lasting (some (.owned selectors block), rule)
  | unkeyed (rule : Rule) : Lasting (none, rule)

theorem Revises.eq_of_lasting (h : Revises x slot slot') (hl : Lasting slot) : slot' = slot := by
  cases h with
  | same => rfl
  | gather | redeclare => cases hl

end Registry

namespace Registration

open Registry

variable {x : Registration} {key : RuleKey} {rule : Rule} {slot : Option RuleKey × Rule}

theorem plain_arrivals (x : Registration) : ∀ slot ∈ x.arrivals, RuleSet.Plain slot := by
  intro slot hs
  cases x with
  | rule selector d =>
    rw [arrivals] at hs
    split at hs
    · obtain ⟨node, -, hnode⟩ := List.mem_filterMap.mp hs
      exact RuleSet.plain_slotOf? hnode
    · exact absurd hs List.not_mem_nil
  | style d debug =>
    have hx : ∀ selector d', style d debug ≠ .rule selector d' := fun _ _ he => by cases he
    exact RuleSet.plain_of_ne_literal (ne_literal_of_mem_slots hx hs)
  | faces ds =>
    have hx : ∀ selector d, faces ds ≠ .rule selector d := fun _ _ he => by cases he
    exact RuleSet.plain_of_ne_literal (ne_literal_of_mem_slots hx hs)
  | keyframes k debug =>
    have hx : ∀ selector d, keyframes k debug ≠ .rule selector d := fun _ _ he => by cases he
    exact RuleSet.plain_of_ne_literal (ne_literal_of_mem_slots hx hs)

/-- A rule of a style adds its selectors to the shared rule that has its block. -/
theorem revises_of_style {d : Description} {debug : Bool} (hx : (some key, rule) ∈ (style d debug).slots)
    (hf : RuleSet.Fits slot) (hs : RuleSet.holds key slot = true) :
    Revises (style d debug) slot (slot.1, (key.revise rule slot.2).1) := by
  by_cases hg : key.Gathers
  · cases key with
    | owned | literal | atRule | keyframes => exact absurd hg id
    | unique selector block => exact absurd hx key_ne_unique
    | shared block =>
      obtain ⟨k, hk, ht⟩ := RuleSet.exists_key_of_holds hs
      obtain ⟨key?, stored⟩ := slot
      obtain rfl : key? = some k := hk
      obtain rfl := RuleKey.eq_of_text_shared ht
      obtain ⟨d', debug', normal, own, declarations, hstyle, hd, rfl, hroot, hblock, hc⟩ :=
        exists_style_of_shared hx
      obtain ⟨⟨c?, -⟩, hmem, rfl⟩ := List.mem_map.mp hc
      cases stored with
      | atRule | keyframes => exact absurd hf id
      | style selectors old unique =>
        obtain ⟨rfl, hold⟩ := hf
        obtain ⟨extra, he, hextra⟩ := Rule.addSelectors_eq_append selectors own
        simp only [RuleKey.revise, Rule.share, he]
        -- the rule may list all of them already
        by_cases hne : extra = []
        · rw [hne, List.append_nil]
          exact .same _ _
        · refine .gather selectors hold hne fun s hs => ⟨own, ?_, hextra s hs⟩
          exact ⟨d', debug', normal, c?, declarations, List.mem_singleton.mpr hstyle.symm, hd, hmem, hroot,
            hblock⟩
  · have hl : ∀ s, key ≠ .literal s := by
      rintro s rfl
      have hx' : ∀ selector d', style d debug ≠ .rule selector d' := fun _ _ he => by cases he
      exact ne_literal_of_mem_slots hx' hx s rfl
    rw [RuleKey.revise_of_not_gathers hg hl]
    exact .same _ _

/-- A flat rule declares the rule of its selector anew. -/
theorem revises_of_rule {selector : String} {d : Description}
    (hx : (some key, rule) ∈ (Registration.rule selector d).arrivals) (hp : RuleSet.Plain slot)
    (hs : RuleSet.holds key slot = true) :
    Revises (.rule selector d) slot (slot.1, (key.revise rule slot.2).1) := by
  rw [arrivals] at hx
  split at hx
  · next normal hd =>
    obtain ⟨node, hnode, hslot⟩ := List.mem_filterMap.mp hx
    cases RuleSet.slotOf_of_some hslot with
    | rule s unique hne =>
      obtain ⟨key?, stored⟩ := slot
      obtain rfl : key? = some (.literal s) := RuleSet.holds_literal.mp hs
      obtain ⟨old, rfl⟩ := hp
      exact .redeclare hd hnode hne old _
    -- a block that is there already is not merged into
    | atRule => exact .same _ _
  · exact absurd hx List.not_mem_nil

theorem revises_of_holds (hx : (some key, rule) ∈ x.arrivals) (hf : RuleSet.Fits slot) (hp : RuleSet.Plain slot)
    (hs : RuleSet.holds key slot = true) : Revises x slot (slot.1, (key.revise rule slot.2).1) := by
  cases x with
  | style d debug => exact revises_of_style hx hf hs
  | rule selector d => exact revises_of_rule hx hp hs
  | faces ds =>
    have hb : Brings (faces ds) (some key, rule) := brings_of_mem_slots hx
    cases hb
  | keyframes k debug =>
    have hb : Brings (keyframes k debug) (some key, rule) := brings_of_mem_slots hx
    cases hb
    exact .same _ _

end Registration

namespace Registry

variable {xs ys : List Registration} {x : Registration} {slot slot' : Option RuleKey × Rule} {i : Nat}

theorem plain_run (xs : List Registration) : ∀ slot ∈ (run {} xs).rules, RuleSet.Plain slot := by
  rw [rules_run_arrivals]
  refine RuleSet.plain_depositAll (fun _ h => absurd h List.not_mem_nil) fun slot hs => ?_
  obtain ⟨x, -, hs⟩ := List.mem_flatMap.mp hs
  exact x.plain_arrivals slot hs

/-- Slots of a registration that come one after the other revise a stored slot as the registration may. -/
theorem revises_depositAll {rules : RuleSet} {new : List (Option RuleKey × Rule)}
    (hf : ∀ s ∈ rules, RuleSet.Fits s) (hp : ∀ s ∈ rules, RuleSet.Plain s)
    (hn : ∀ y ∈ new, y ∈ x.arrivals) (h : rules[i]? = some slot) :
    ∃ slot', (RuleSet.depositAll rules new).1[i]? = some slot' ∧ Revises x slot slot' := by
  induction new generalizing rules slot with
  | nil => exact ⟨slot, h, .same x slot⟩
  | cons y rest ih =>
    have hy : y ∈ x.arrivals := hn y List.mem_cons_self
    have hrest : ∀ z ∈ rest, z ∈ x.arrivals := fun z hz => hn z (List.mem_cons_of_mem _ hz)
    have hone : ∀ z ∈ [y], z ∈ x.arrivals := fun z hz => List.mem_singleton.mp hz ▸ hy
    have hf' : ∀ s ∈ (RuleSet.deposit rules y).1, RuleSet.Fits s :=
      RuleSet.fits_depositAll hf fun z hz => x.fits_arrivals z (hone z hz)
    have hp' : ∀ s ∈ (RuleSet.deposit rules y).1, RuleSet.Plain s :=
      RuleSet.plain_depositAll hp fun z hz => x.plain_arrivals z (hone z hz)
    rw [RuleSet.depositAll_cons]
    rcases RuleSet.getElem?_deposit h y with hsame | ⟨key, rule, rfl, hs, hrevised⟩
    · exact ih hf' hp' hrest hsame
    · obtain ⟨slot', h', hrev⟩ := ih hf' hp' hrest hrevised
      have hmem := List.mem_of_getElem? h
      exact ⟨slot', h', (Registration.revises_of_holds hy (hf _ hmem) (hp _ hmem) hs).trans hrev⟩

/-- The step lemma: a registration revises the slot at a position, or leaves it as it is. -/
theorem revises_step (xs : List Registration) (x : Registration) (h : (run {} xs).rules[i]? = some slot) :
    ∃ slot', ((run {} xs).step x).rules[i]? = some slot' ∧ Revises x slot slot' := by
  rw [rules_step_arrivals]
  exact revises_depositAll (fits_run xs) (plain_run xs) (fun _ hy => hy) h

/-- A lasting rule stays as it is over every further run. -/
theorem lasting_run (hl : Lasting slot) (h : (run {} xs).rules[i]? = some slot) (ys : List Registration) :
    ((run {} xs).run ys).rules[i]? = some slot := by
  induction ys generalizing xs with
  | nil => exact h
  | cons y rest ih =>
    have hstep : (run {} (xs ++ [y])).rules[i]? = some slot := by
      obtain ⟨slot', h', hrev⟩ := revises_step xs y h
      rw [run_snoc, h', hrev.eq_of_lasting hl]
    have hrest := ih hstep
    rwa [run_snoc] at hrest

/-- A registration leaves every stored rule in its position, so new rules come behind them, and revises
only what it has a part in. Lasting rules are the same after any further run. -/
theorem registration_touches_own (xs : List Registration) :
    (∀ (x : Registration) (i : Nat) slot, (run {} xs).rules[i]? = some slot →
      ∃ slot', ((run {} xs).step x).rules[i]? = some slot' ∧ Revises x slot slot') ∧
    ∀ (ys : List Registration) (i : Nat) slot, (run {} xs).rules[i]? = some slot → Lasting slot →
      ((run {} xs).run ys).rules[i]? = some slot :=
  ⟨fun x _ _ h => revises_step xs x h, fun ys _ _ h hl => lasting_run hl h ys⟩

/-- A literal rule in front of a font face. A style with the same declarations leaves both. -/
theorem registration_touches_own_redFace :
    (∃ slot', ((run {} [.rule "body" red, .faces [red]]).step (.style red false)).rules[0]? = some slot' ∧
      Revises (.style red false) (some (.literal "body"), .style ["body"] redStyle.declarations false) slot') ∧
    ((run {} [.rule "body" red, .faces [red]]).run redRun).rules[1]? =
      some (none, .style ["@font-face"] redStyle.declarations true) := by
  obtain ⟨hstep, hrun⟩ := registration_touches_own [.rule "body" red, .faces [red]]
  exact ⟨hstep (.style red false) 0 _ rfl, hrun redRun 1 _ rfl (.unkeyed _)⟩

end Registry

end StyleEngine
