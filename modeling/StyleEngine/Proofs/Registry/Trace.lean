import StyleEngine.Proofs.Registry.Kept
import StyleEngine.Proofs.RuleSet.Onto

/-!
# The order of the rules of one style

The cascade goes by the order in which selectors and blocks are written. When a style is registered,
its rules under new keys are written as in an empty registry, and a root rule whose block is shared
already is written where that block stands, before all others (`moved`).
-/

namespace StyleEngine

/-- One selector as it is written: the at-rules around it, the selector and its block. -/
structure Line where
  path : List String
  selector : String
  block : String
  deriving DecidableEq, Repr

mutual

/-- The lines of a rule inside the at-rules of `path`. -/
def Rule.lines (path : List String) : Rule → List Line
  | .style selectors declarations _ => selectors.map fun s => ⟨path, s, Declaration.cssAll declarations⟩
  | .atRule rule body => linesFrom (path ++ [rule]) body
  | .keyframes _ _ => []

def linesFrom (path : List String) : List (Option RuleKey × Rule) → List Line
  | [] => []
  | (_, rule) :: rest => rule.lines path ++ linesFrom path rest

end

namespace RuleSet

/-- The lines of a rule set, in the order in which they are written. -/
def lines (rules : RuleSet) : List Line := linesFrom [] rules

theorem linesFrom_eq_flatMap (path : List String) (rules : List (Option RuleKey × Rule)) :
    linesFrom path rules = rules.flatMap fun slot => slot.2.lines path := by
  induction rules with
  | nil => rw [linesFrom]; rfl
  | cons slot rest ih => rw [linesFrom, ih, List.flatMap_cons]

theorem lines_append (first second : RuleSet) : lines (first ++ second) = lines first ++ lines second := by
  rw [lines, lines, lines, linesFrom_eq_flatMap, linesFrom_eq_flatMap, linesFrom_eq_flatMap,
    List.flatMap_append]

theorem lines_cons (slot : Option RuleKey × Rule) (rules : RuleSet) :
    lines (slot :: rules) = slot.2.lines [] ++ lines rules := by
  rw [lines, lines, linesFrom]

theorem mem_lines {rules : RuleSet} {line : Line} :
    line ∈ lines rules ↔ ∃ slot ∈ rules, line ∈ slot.2.lines [] := by
  rw [lines, linesFrom_eq_flatMap, List.mem_flatMap]

end RuleSet

/-! ## Selectors of lines -/

variable {S S' A : String → Prop} {D : Declaration → Prop}

theorem Rule.All.selector_of_mem_lines {rule : Rule} (h : rule.All S D A) {path : List String}
    {line : Line} (hl : line ∈ rule.lines path) : S line.selector := by
  induction h generalizing path with
  | style _ hs =>
    unfold Rule.lines at hl
    obtain ⟨s, hm, rfl⟩ := List.mem_map.mp hl
    exact hs s hm
  | atRule _ _ _ ih =>
    rw [Rule.lines, RuleSet.linesFrom_eq_flatMap] at hl
    obtain ⟨slot, hm, hl⟩ := List.mem_flatMap.mp hl
    exact ih slot hm hl

/-- What holds of the selectors of all lines of a rule holds throughout the rule. -/
theorem Rule.All.of_lines {rule : Rule} (h : rule.All S D A) (path : List String)
    (hl : ∀ line ∈ rule.lines path, S' line.selector) : rule.All S' D A := by
  induction h generalizing path with
  | style hne _ hdne hd =>
    unfold Rule.lines at hl
    exact .style hne (fun s hm => hl _ (List.mem_map_of_mem hm)) hdne hd
  | atRule ha hne _ ih =>
    rw [Rule.lines, RuleSet.linesFrom_eq_flatMap] at hl
    exact .atRule ha hne fun slot hm =>
      ih slot hm _ fun line hline => hl line (List.mem_flatMap.mpr ⟨slot, hm, hline⟩)

namespace Registry

/-- Whether the selector of the line is one of the rules that the style compiles. -/
def belongs (style : NormalStyle) (line : Line) : Bool :=
  ((compile style (className style)).lines.map Line.selector).contains line.selector

/-- The rules of `fresh` whose blocks `base` shares already, in the order of `base`. -/
def moved (base fresh : RuleSet) : RuleSet :=
  base.filterMap fun slot =>
    match slot.1 with
    | some (.shared block) => (fresh.find? (.shared block)).map fun rule => (slot.1, rule)
    | _ => none

theorem moved_of_shared {slot : Option RuleKey × Rule} {block : String}
    (h : slot.1 = some (.shared block)) (fresh : RuleSet) :
    moved [slot] fresh = ((fresh.find? (.shared block)).map fun rule => (slot.1, rule)).toList := by
  obtain ⟨key?, rule⟩ := slot
  obtain rfl : key? = some (.shared block) := h
  rw [moved, List.filterMap_cons]
  cases hf : fresh.find? (.shared block) <;> simp [hf]

theorem moved_of_ne_shared {slot : Option RuleKey × Rule} (h : ∀ block, slot.1 ≠ some (.shared block))
    (fresh : RuleSet) : moved [slot] fresh = [] := by
  rw [moved, List.filterMap_cons]
  split
  · rfl
  · next hk =>
    split at hk
    · next block hkey => exact absurd hkey (h block)
    · cases hk

theorem within_of_belongs {style : NormalStyle} {line : Line} (h : belongs style line = true) :
    Within (root style) line.selector := by
  obtain ⟨l, hl, he⟩ := List.mem_map.mp (List.contains_iff_mem.mp h)
  obtain ⟨slot, hs, hl⟩ := RuleSet.mem_lines.mp hl
  exact he ▸ (all_compile_within style slot hs).selector_of_mem_lines hl

section

variable {d : Description} {debug : Bool} {style : NormalStyle}

/-- Alone in a registry, a style shows no other selectors than those that it compiles. -/
theorem all_fresh_belongs (h : d.normalize debug = .ok style) :
    ∀ slot ∈ (run {} [.style d debug]).rules, ∀ line ∈ slot.2.lines [], belongs style line = true := by
  have hcompile : ∀ c ∈ compile style (className style),
      c.2.All (· ∈ (compile style (className style)).lines.map Line.selector) (fun _ => True) fun _ => True := by
    intro c hc
    refine (all_compile_within style c hc).of_lines [] fun line hl => ?_
    exact List.mem_map_of_mem (RuleSet.mem_lines.mpr ⟨c, hc, hl⟩)
  have hrules : ∀ slot ∈ (run {} [.style d debug]).rules,
      slot.2.All (· ∈ (compile style (className style)).lines.map Line.selector) (fun _ => True) fun _ => True := by
    rw [rules_run]
    refine RuleSet.all_depositAll (fun _ hm => absurd hm List.not_mem_nil) fun x hx => ?_
    rw [List.flatMap_cons, List.flatMap_nil, List.append_nil, Registration.slots_style h] at hx
    obtain ⟨c, hc, -, rfl⟩ := RuleSet.mem_rekey.mp hx
    exact hcompile c hc
  intro slot hs line hl
  exact List.contains_iff_mem.mpr ((hrules slot hs).selector_of_mem_lines hl)

theorem filter_belongs_fresh (h : d.normalize debug = .ok style) {rules : RuleSet}
    (hsub : ∀ slot ∈ rules, slot ∈ (run {} [.style d debug]).rules) :
    rules.lines.filter (belongs style) = rules.lines := by
  refine List.filter_eq_self.mpr fun line hl => ?_
  obtain ⟨slot, hs, hl⟩ := RuleSet.mem_lines.mp hl
  exact all_fresh_belongs h slot (hsub slot hs) line hl

theorem filter_belongs_free {rule : Rule}
    (hfree : ∀ line ∈ rule.lines [], ¬ Within (root style) line.selector) :
    (rule.lines []).filter (belongs style) = [] :=
  List.filter_eq_nil_iff.mpr fun line hl hb => hfree line hl (within_of_belongs hb)

/-- Of an enriched rule, the style owns what it was enriched with. -/
theorem filter_belongs_enrich (h : d.normalize debug = .ok style) {slot : Option RuleKey × Rule}
    (hfits : RuleSet.Fits slot) (hfree : ∀ line ∈ slot.2.lines [], ¬ Within (root style) line.selector) :
    ((RuleSet.enrich (run {} [.style d debug]).rules slot).2.lines []).filter (belongs style) =
      (moved [slot] (run {} [.style d debug]).rules).lines := by
  by_cases hs : ∃ block, slot.1 = some (.shared block)
  · obtain ⟨block, hkey⟩ := hs
    obtain ⟨key?, stored⟩ := slot
    obtain rfl : key? = some (.shared block) := hkey
    rw [RuleSet.enrich_of_shared rfl, moved_of_shared rfl]
    cases hfind : (run {} [.style d debug]).rules.find? (.shared block) with
    | none => exact filter_belongs_free hfree
    | some rule =>
      have hmem := RuleSet.mem_of_find?_shared hfind
      have hrfits := fits_run _ _ hmem
      have hdistinct := distinct_run _ _ hmem
      have hbelongs := all_fresh_belongs h _ hmem
      cases rule with
      | atRule | keyframes => exact absurd hrfits id
      | style fs fds fu =>
        cases stored with
        | atRule | keyframes => exact absurd hfits id
        | style ss ds u =>
          have hblock : Declaration.cssAll ds = Declaration.cssAll fds := hfits.2.trans hrfits.2.symm
          simp only [Rule.lines, List.mem_map, forall_exists_index, and_imp, forall_apply_eq_imp_iff₂]
            at hfree hbelongs
          have hnew : ∀ s ∈ fs, s ∉ ss := fun s hf hm => hfree s hm (within_of_belongs (hbelongs s hf))
          have hold : (ss.map fun s => Line.mk [] s (Declaration.cssAll ds)).filter (belongs style) = [] := by
            refine List.filter_eq_nil_iff.mpr fun line hl hb => ?_
            obtain ⟨s, hm, rfl⟩ := List.mem_map.mp hl
            exact hfree s hm (within_of_belongs hb)
          have hown : (fs.map fun s => Line.mk [] s (Declaration.cssAll fds)).filter (belongs style) =
              fs.map fun s => Line.mk [] s (Declaration.cssAll fds) := by
            refine List.filter_eq_self.mpr fun line hl => ?_
            obtain ⟨s, hm, rfl⟩ := List.mem_map.mp hl
            exact hbelongs s hm
          show (((Rule.addSelectors ss fs).1).map fun s => Line.mk [] s (Declaration.cssAll ds)).filter
              (belongs style) = _
          rw [Rule.addSelectors_of_disjoint hdistinct hnew, List.map_append, List.filter_append, hold,
            hblock, hown]
          simp [Rule.lines, RuleSet.lines, linesFrom]
  · have hs : ∀ block, slot.1 ≠ some (.shared block) := fun block hk => hs ⟨block, hk⟩
    rw [RuleSet.enrich_of_ne_shared hs, moved_of_ne_shared hs]
    exact filter_belongs_free hfree

theorem filter_belongs_map_enrich (h : d.normalize debug = .ok style) {base : RuleSet}
    (hfits : ∀ slot ∈ base, RuleSet.Fits slot)
    (hfree : ∀ line ∈ base.lines, ¬ Within (root style) line.selector) :
    (RuleSet.lines (base.map (RuleSet.enrich (run {} [.style d debug]).rules))).filter (belongs style) =
      (moved base (run {} [.style d debug]).rules).lines := by
  induction base with
  | nil => rfl
  | cons slot rest ih =>
    have hslot := filter_belongs_enrich h (hfits slot List.mem_cons_self) fun line hl =>
      hfree line (RuleSet.mem_lines.mpr ⟨slot, List.mem_cons_self, hl⟩)
    have hrest := ih (fun s hs => hfits s (List.mem_cons_of_mem _ hs)) fun line hl => by
      obtain ⟨s, hs, hl⟩ := RuleSet.mem_lines.mp hl
      exact hfree line (RuleSet.mem_lines.mpr ⟨s, List.mem_cons_of_mem _ hs, hl⟩)
    have hsplit : moved (slot :: rest) (run {} [.style d debug]).rules =
        moved [slot] (run {} [.style d debug]).rules ++ moved rest (run {} [.style d debug]).rules :=
      List.filterMap_append (l := [slot])
    rw [List.map_cons, RuleSet.lines_cons, List.filter_append, hslot, hrest, hsplit, RuleSet.lines_append]

theorem rules_run_style (h : d.normalize debug = .ok style) (xs : List Registration) :
    (run {} (xs ++ [.style d debug])).rules =
      (run {} xs).rules.map (RuleSet.enrich (run {} [.style d debug]).rules) ++
        (run {} [.style d debug]).rules.filter (RuleSet.isNew (run {} xs).rules) := by
  have hfresh : (run {} [.style d debug]).rules =
      (RuleSet.depositAll [] (Registration.style d debug).slots).1 := rules_step {} _
  rw [run_snoc, rules_step, hfresh]
  refine RuleSet.depositAll_onto (keyTexts_nodup_run xs) fun x hx => ⟨Registration.fits_slots _ x hx, ?_⟩
  rw [Registration.slots_style h] at hx
  obtain ⟨c, -, -, rfl⟩ := RuleSet.mem_rekey.mp hx
  exact ⟨_, rfl, RuleSet.ofStyle_key _ c.2⟩

/-- Where all keys are new, no block is moved. -/
theorem moved_of_isNew {base fresh : RuleSet}
    (h : ∀ slot ∈ fresh, RuleSet.isNew base slot = true) : moved base fresh = [] := by
  rw [moved, List.filterMap_eq_nil_iff]
  intro slot hs
  split
  · next block hkey =>
    cases hfind : fresh.find? (.shared block) with
    | none => rfl
    | some rule =>
      have hnew := h _ (RuleSet.mem_of_find?_shared hfind)
      have hold : base.any (RuleSet.holds (.shared block)) = true :=
        List.any_eq_true.mpr ⟨slot, hs, by simp [RuleSet.holds, hkey]⟩
      rw [RuleSet.isNew_some rfl, hold] at hnew
      cases hnew
  · rfl

/-- What a style shows after any run that does not mention its class: first the blocks that were
shared already, then the rules under new keys as in an empty registry. If all its keys are new, it
shows what it shows in an empty registry. -/
theorem lines_of_style (h : d.normalize debug = .ok style) {xs : List Registration}
    (hfree : ∀ line ∈ (run {} xs).rules.lines, ¬ Within (root style) line.selector) :
    let base := (run {} xs).rules
    let fresh := (run {} [.style d debug]).rules
    let own := (run {} (xs ++ [.style d debug])).rules.lines.filter (belongs style)
    own = (moved base fresh).lines ++ RuleSet.lines (fresh.filter (RuleSet.isNew base)) ∧
      ((∀ slot ∈ fresh, RuleSet.isNew base slot = true) → own = fresh.lines) := by
  intro base fresh own
  have hown : own = (moved base fresh).lines ++ RuleSet.lines (fresh.filter (RuleSet.isNew base)) := by
    show (run {} (xs ++ [.style d debug])).rules.lines.filter (belongs style) = _
    rw [rules_run_style h, RuleSet.lines_append, List.filter_append,
      filter_belongs_map_enrich h (fits_run xs) hfree,
      filter_belongs_fresh h fun slot hs => (List.mem_filter.mp hs).1]
  refine ⟨hown, fun hnew => ?_⟩
  rw [hown, moved_of_isNew hnew, List.filter_eq_self.mpr hnew]
  rfl

end

/-- Red, and blue again below the same selector: alone, blue is written last and wins. -/
def blueOverRed : Description := (Description.set {} "color" (.text "red")).nest "&" (Description.set {} "color" (.text "blue"))

def blueOverRedStyle : NormalStyle :=
  { declarations := [⟨"color", "red"⟩], nested := [("&", { declarations := [⟨"color", "blue"⟩] })] }

/-- An earlier style with the blue block. -/
def blueFirst : List Registration := [.style (Description.set {} "color" (.text "blue")) false]

theorem lines_of_style_blueOverRed :
    blueOverRed.normalize false = .ok blueOverRedStyle ∧
    (∀ line ∈ (run {} blueFirst).rules.lines, ¬ Within (root blueOverRedStyle) line.selector) ∧
    (run {} (blueFirst ++ [.style blueOverRed false])).rules.lines.filter (belongs blueOverRedStyle) =
      (moved (run {} blueFirst).rules (run {} [.style blueOverRed false]).rules).lines ++
        RuleSet.lines ((run {} [.style blueOverRed false]).rules.filter
          (RuleSet.isNew (run {} blueFirst).rules)) := by
  have hstyle : blueOverRed.normalize false = .ok blueOverRedStyle := rfl
  have hfree : ∀ line ∈ (run {} blueFirst).rules.lines, ¬ Within (root blueOverRedStyle) line.selector := by
    unfold Within
    decide +kernel
  exact ⟨hstyle, hfree, (lines_of_style hstyle hfree).1⟩

/-- After the earlier style, red is written last and wins. -/
theorem red_wins_after_blueFirst :
    blueOverRed.normalize false = .ok blueOverRedStyle ∧
    (∀ line ∈ (run {} blueFirst).rules.lines, ¬ Within (root blueOverRedStyle) line.selector) ∧
    (run {} [.style blueOverRed false]).rules.lines =
      [⟨[], ".fpmph0o", "color:red"⟩, ⟨[], ".fpmph0o", "color:blue"⟩] ∧
    (run {} (blueFirst ++ [.style blueOverRed false])).rules.lines.filter (belongs blueOverRedStyle) =
      [⟨[], ".fpmph0o", "color:blue"⟩, ⟨[], ".fpmph0o", "color:red"⟩] := by
  refine ⟨rfl, ?_, ?_, ?_⟩
  · unfold Within
    decide +kernel
  · decide +kernel
  · decide +kernel

end Registry

end StyleEngine
