import StyleEngine.Proofs.RuleSet.Content
import StyleEngine.Proofs.Selector.Root

/-!
# No rule is lost and none is invented

Over a whole run, whatever is registered in between, each rule that a style compiled is in the
registry at the end, and each rule there was compiled by some registration; only the selector list of
a shared block is gathered from several (`Keeps`, `Accounted`).
-/

namespace StyleEngine

namespace Registry

theorem lower_unseparated : ∀ c, Unseparated c → Unseparated c.toLower :=
  lower_of_letters fun c hlo _ => by
    rintro rfl
    exact absurd hlo (by decide)

/-- The nodes of a description without separators have none under its class either. -/
theorem all_flatten_unseparated {d : Description} {debug : Bool} {style : NormalStyle}
    (ht : d.Texts Unseparated) (h : d.normalize debug = .ok style) :
    ∀ node ∈ style.flatten (root style),
      node.All (AllChars Unseparated) (Declaration.Texts Unseparated) (AllChars Unseparated) := by
  have hamp : Unseparated '&' := fun e => absurd e (by decide)
  have hdash : Unseparated '-' := fun e => absurd e (by decide)
  have hcomma : Unseparated ',' := fun e => absurd e (by decide)
  have hblank : Unseparated ' ' := fun e => absurd e (by decide)
  have hstyle := ht.all_normalize hamp hdash lower_unseparated h
  exact hstyle.flatten (fun _ _ _ hp hk => Selector.allChars_compose hcomma hblank hp hk) (fun _ _ hk => hk)
    (unseparated_root style)

/-- The compiled rules of a description without separators have none either. -/
theorem all_compile_unseparated {d : Description} {debug : Bool} {style : NormalStyle}
    (ht : d.Texts Unseparated) (h : d.normalize debug = .ok style) :
    ∀ slot ∈ compile style (className style),
      slot.2.All (AllChars Unseparated) (Declaration.Texts Unseparated) (AllChars Unseparated) :=
  RuleSet.all_ofNodes (all_flatten_unseparated ht h)

/-- Every selector of a compiled style has the class in it. -/
theorem all_compile_within (style : NormalStyle) :
    ∀ slot ∈ compile style (className style),
      slot.2.All (Within (root style)) (fun _ => True) (fun _ => True) :=
  RuleSet.all_ofNodes_within (solid_root style) style

end Registry

namespace Registration

open Registry

/-- A rule of a style that is not shared shows exactly what its key says. -/
theorem css_of_owned {x : Registration} {selectors block : String} {rule : Rule}
    (h : (some (.owned selectors block), rule) ∈ x.slots) : rule.css = braced selectors block := by
  obtain ⟨d, debug, normal, c, -, -, hc, rfl, hkey⟩ := exists_style_of_key h trivial
  have hall := all_compile_within normal c hc
  have hfits := RuleSet.fits_ofStyle (root normal) c.2
  rw [hkey] at hfits
  generalize c.2 = rule at hall hfits
  cases hall with
  | atRule => exact absurd hfits id
  | @style ss ds unique hne hs hdne hd =>
    obtain ⟨rfl, rfl⟩ := hfits
    obtain ⟨s, rest, rfl⟩ := List.exists_cons_of_ne_nil hne
    have hs : s ≠ "" := (solid_root normal).ne_empty_of_within (hs s List.mem_cons_self)
    exact Rule.css_style hdne ⟨s, List.mem_cons_self, hs⟩

/-- No slot of a registration is unique within a style. -/
theorem key_ne_unique {x : Registration} {rule : Rule} {selector block : String} :
    (some (.unique selector block), rule) ∉ x.slots := by
  intro h
  obtain ⟨d, debug, normal, c, -, -, -, rfl, hkey⟩ := exists_style_of_key h trivial
  generalize c.2 = rule at hkey
  cases rule with
  | atRule | keyframes => cases hkey
  | style ss ds u =>
    simp only [Rule.key, RuleKey.ofStyle] at hkey
    split at hkey <;> cases hkey

end Registration

namespace Registry

theorem mem_slots_run {xs : List Registration} {slot : Option RuleKey × Rule}
    (h : slot ∈ (run {} xs).rules) : ∃ x ∈ xs, ∃ s ∈ x.slots, RuleSet.Evolves s slot := by
  rw [rules_run] at h
  obtain ⟨s, hs, he⟩ := RuleSet.mem_depositAll h
  rcases hs with hs | hs
  · exact absurd hs List.not_mem_nil
  · obtain ⟨x, hx, hs⟩ := List.mem_flatMap.mp hs
    exact ⟨x, hx, s, hs, he⟩

/-- The selectors of a shared block are those brought under it. -/
theorem lists_run {xs : List Registration} {block s : String} :
    RuleSet.Lists (run {} xs).rules block s ↔ ∃ x ∈ xs, RuleSet.Lists x.slots block s := by
  have hfits : ∀ slot ∈ xs.flatMap Registration.slots, RuleSet.Fits slot := by
    intro slot hs
    obtain ⟨x, -, hs⟩ := List.mem_flatMap.mp hs
    exact x.fits_slots slot hs
  rw [rules_run, RuleSet.lists_depositAll (fun _ h => absurd h List.not_mem_nil) hfits]
  constructor
  · rintro (⟨ss, ds, u, hm, -⟩ | ⟨ss, ds, u, hm, hs⟩)
    · exact absurd hm List.not_mem_nil
    · obtain ⟨x, hx, hm⟩ := List.mem_flatMap.mp hm
      exact ⟨x, hx, ss, ds, u, hm, hs⟩
  · rintro ⟨x, hx, ss, ds, u, hm, hs⟩
    exact .inr ⟨ss, ds, u, List.mem_flatMap.mpr ⟨x, hx, hm⟩, hs⟩

/-- The slot under a shared block lists exactly what the run brought under it. -/
theorem mem_selectors_iff {xs : List Registration} {block : String} {selectors : List String}
    {declarations : List Declaration} {unique : Bool}
    (h : (some (.shared block), .style selectors declarations unique) ∈ (run {} xs).rules) (s : String) :
    s ∈ selectors ↔ ∃ x ∈ xs, RuleSet.Lists x.slots block s := by
  rw [← lists_run]
  constructor
  · exact fun hs => ⟨selectors, declarations, unique, h, hs⟩
  · rintro ⟨ss, ds, u, hm, hs⟩
    obtain ⟨rfl, -⟩ := Rule.style.inj (RuleSet.rule_unique (keyTexts_nodup_run xs) hm h)
    exact hs

/-- A clean key under which a style is merged is in the registry at the end. -/
theorem exists_rule_of_compiled {xs : List Registration} {d : Description} {debug : Bool}
    {style : NormalStyle} (hx : .style d debug ∈ xs) (h : d.normalize debug = .ok style)
    (ht : d.Texts Unseparated) {slot : Option RuleKey × Rule}
    (hs : slot ∈ compile style (className style)) :
    ∃ rule, (some (slot.2.key (RuleKey.ofStyle (root style))), rule) ∈ (run {} xs).rules := by
  have hall := all_compile_unseparated ht h slot hs
  have hmem : (some (slot.2.key (RuleKey.ofStyle (root style))), slot.2) ∈ xs.flatMap Registration.slots := by
    refine List.mem_flatMap.mpr ⟨_, hx, ?_⟩
    rw [Registration.slots_style h]
    exact RuleSet.mem_rekey.mpr ⟨slot, hs, hall.isVoid, rfl⟩
  rw [rules_run]
  exact RuleSet.exists_key_depositAll hmem fun k hk => RuleKey.eq_of_text (hall.clean_key _) hk

/-- What must be stored of a rule that a style with the given root compiled. -/
def Keeps (rules : RuleSet) (root : String) : Rule → Prop
  | .style selectors declarations unique =>
    if RuleKey.sharesRoot root selectors unique then
      ∃ key? selectors' declarations' unique', (key?, .style selectors' declarations' unique') ∈ rules ∧
        Declaration.cssAll declarations' = Declaration.cssAll declarations ∧ ∀ s ∈ selectors, s ∈ selectors'
    else ∃ slot ∈ rules, slot.2.css = (Rule.style selectors declarations unique).css
  | rule => ∃ slot ∈ rules, slot.2.css = rule.css

/-- Some style of the run compiles a rule with these selectors that shares this block with roots. -/
def SharesBlock (xs : List Registration) (block : String) (selectors : List String) : Prop :=
  ∃ d debug style key? declarations, .style d debug ∈ xs ∧ d.normalize debug = .ok style ∧
    (key?, .style selectors declarations false) ∈ compile style (className style) ∧
    root style ∈ selectors ∧ Declaration.cssAll declarations = block

/-- What a stored rule comes from. A shared block lists exactly the selectors of the rules that share
it, each once; any other rule was compiled as it is, those for literal selectors aside. -/
def Accounted (xs : List Registration) : Option RuleKey × Rule → Prop
  | (some (.shared block), rule) =>
    ∃ selectors declarations, rule = .style selectors declarations false ∧
      Declaration.cssAll declarations = block ∧ selectors.Nodup ∧
      ∀ s, s ∈ selectors ↔ ∃ ss, SharesBlock xs block ss ∧ s ∈ ss
  | (some (.literal _), _) => True
  | (_, rule) => ∃ x ∈ xs, ∃ c ∈ x.compiled, c.2 = rule

theorem keeps_run {xs : List Registration} {d : Description} {debug : Bool} {style : NormalStyle}
    (hx : .style d debug ∈ xs) (h : d.normalize debug = .ok style) (ht : d.Texts Unseparated)
    {slot : Option RuleKey × Rule} (hs : slot ∈ compile style (className style)) :
    Keeps (run {} xs).rules (root style) slot.2 := by
  obtain ⟨stored, hstored⟩ := exists_rule_of_compiled hx h ht hs
  have hfits := fits_run xs _ hstored
  have hwithin := all_compile_within style slot hs
  have hslots : (some (slot.2.key (RuleKey.ofStyle (root style))), slot.2) ∈ (Registration.style d debug).slots := by
    rw [Registration.slots_style h]
    exact RuleSet.mem_rekey.mpr ⟨slot, hs, hwithin.isVoid, rfl⟩
  generalize slot.2 = rule at *
  cases rule with
  | keyframes => cases hwithin
  | atRule rule body =>
    cases stored with
    | style | keyframes => exact absurd hfits id
    | atRule rule' body' =>
      obtain ⟨rfl, hbody⟩ := hfits
      refine ⟨_, hstored, ?_⟩
      show (Rule.atRule rule' body').css = (Rule.atRule rule' body).css
      have hcss : cssFrom false body' = cssFrom false body := hbody
      simp only [Rule.css, hcss]
  | style selectors declarations unique =>
    rw [Keeps]
    simp only [Rule.key, RuleKey.ofStyle] at hstored hfits hslots
    split
    · next hshare =>
      rw [if_pos hshare] at hstored hfits hslots
      cases stored with
      | atRule | keyframes => exact absurd hfits id
      | style selectors' declarations' unique' =>
        refine ⟨_, selectors', declarations', unique', hstored, hfits.2, fun s hm => ?_⟩
        exact (mem_selectors_iff hstored s).mpr ⟨_, hx, selectors, declarations, unique, hslots, hm⟩
    · next hshare =>
      rw [if_neg hshare] at hstored hslots
      refine ⟨_, hstored, ?_⟩
      -- both rules show what the key says, whichever style brought the stored one
      obtain ⟨x, -, s, hmem, hev⟩ := mem_slots_run hstored
      obtain ⟨key?, r⟩ := s
      obtain rfl : key? = _ := hev.key_eq.symm
      have heq := hev.eq_of_fixed id (fun _ he => by cases he)
      obtain rfl := (Prod.mk.inj heq).2
      exact (Registration.css_of_owned hmem).trans (Registration.css_of_owned hslots).symm

/-- What a run brought under a block are the rules of its styles that share the block. -/
theorem exists_lists_slots_iff {xs : List Registration} {block s : String} :
    (∃ x ∈ xs, RuleSet.Lists x.slots block s) ↔ ∃ ss, SharesBlock xs block ss ∧ s ∈ ss := by
  constructor
  · rintro ⟨x, hx, ss, ds, u, hm, hs⟩
    obtain ⟨d, debug, style, ss', ds', rfl, hd, he, hroot, hblock, hc⟩ :=
      Registration.exists_style_of_shared hm
    obtain ⟨rfl, rfl, rfl⟩ := Rule.style.inj he
    obtain ⟨⟨key?, r⟩, hc, rfl⟩ := List.mem_map.mp hc
    exact ⟨ss, ⟨d, debug, style, key?, ds, hx, hd, hc, hroot, hblock⟩, hs⟩
  · rintro ⟨ss, ⟨d, debug, style, key?, ds, hx, hd, hc, hroot, hblock⟩, hs⟩
    refine ⟨_, hx, ss, ds, false, ?_, hs⟩
    rw [Registration.slots_style hd, ← hblock, ← RuleSet.key_of_shares hroot ds]
    exact RuleSet.mem_rekey.mpr ⟨_, hc, rfl, rfl⟩

theorem accounted_run {xs : List Registration} {slot : Option RuleKey × Rule}
    (hs : slot ∈ (run {} xs).rules) : Accounted xs slot := by
  obtain ⟨x, hx, origin, hmem, hev⟩ := mem_slots_run hs
  obtain ⟨key?, rule⟩ := slot
  -- a slot that did not evolve is one that was brought
  have hsame : origin = (key?, rule) → ∃ x ∈ xs, ∃ c ∈ x.compiled, c.2 = rule := by
    rintro rfl
    obtain ⟨c, hc, he⟩ := Registration.exists_compiled_of_mem_slots hmem
    exact ⟨x, hx, c, hc, he⟩
  cases key? with
  | none => cases hev; exact hsame rfl
  | some key =>
    cases key with
    | literal => trivial
    | owned | atRule | keyframes =>
      cases hev with
      | same => exact hsame rfl
      | gather hk => exact absurd hk id
    | unique =>
      obtain ⟨origin?, r⟩ := origin
      obtain rfl : origin? = _ := hev.key_eq.symm
      exact absurd hmem Registration.key_ne_unique
    | shared block =>
      have hfits := fits_run xs _ hs
      have hdistinct := distinct_run xs _ hs
      cases rule with
      | atRule | keyframes => exact absurd hfits id
      | style selectors declarations unique =>
        obtain ⟨rfl, hblock⟩ := hfits
        refine ⟨selectors, declarations, rfl, hblock, hdistinct, fun s => ?_⟩
        rw [mem_selectors_iff hs, exists_lists_slots_iff]

/-- No rule of a style is lost over a run, and none is invented. -/
theorem rules_of_run (xs : List Registration) :
    (∀ d debug style, .style d debug ∈ xs → d.normalize debug = .ok style → d.Texts Unseparated →
      ∀ slot ∈ compile style (className style), Keeps (run {} xs).rules (root style) slot.2) ∧
    ∀ slot ∈ (run {} xs).rules, Accounted xs slot :=
  ⟨fun _ _ _ hx h ht _ hs => keeps_run hx h ht hs, fun _ hs => accounted_run hs⟩

def red : Description := Description.set {} "color" (.text "red")

def redStyle : NormalStyle := { declarations := [⟨"color", "red"⟩] }

/-- A style between a literal rule and another style with the same block. -/
def redRun : List Registration :=
  [.rule "body" red, .style red false, .style (red.nest "&:hover" red) false]

theorem texts_red {P : Char → Prop} (hproperty : AllChars P "color") (hvalue : AllChars P "red") :
    red.Texts P := by
  refine .mk (fun e he => ?_) (fun e he => ?_) (fun _ he => absurd he List.not_mem_nil)
    (fun _ he => absurd he List.not_mem_nil)
  · obtain rfl := List.mem_singleton.mp he
    exact hproperty
  · obtain rfl := List.mem_singleton.mp he
    intro w hw s hs
    obtain rfl := List.mem_singleton.mp hw
    obtain rfl := Except.ok.inj hs
    exact hvalue

theorem rules_of_run_redRun :
    red.normalize false = .ok redStyle ∧ red.Texts Unseparated ∧
      compile redStyle (className redStyle) ≠ [] ∧
      (∀ slot ∈ compile redStyle (className redStyle), Keeps (run {} redRun).rules (root redStyle) slot.2) ∧
      ∀ slot ∈ (run {} redRun).rules, Accounted redRun slot := by
  have h := rules_of_run redRun
  have hmem : Registration.style red false ∈ redRun := List.mem_cons_of_mem _ List.mem_cons_self
  have ht : red.Texts Unseparated := texts_red (by decide) (by decide)
  refine ⟨rfl, ht, fun he => ?_, h.1 red false redStyle hmem rfl ht, h.2⟩
  have hlength : (compile redStyle (className redStyle)).length = 1 := by decide +kernel
  rw [he] at hlength
  cases hlength

end Registry

end StyleEngine
