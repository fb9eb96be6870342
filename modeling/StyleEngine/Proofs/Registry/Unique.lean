import StyleEngine.Proofs.Registry.Addressing
import StyleEngine.Proofs.Registry.Ownership
import StyleEngine.Proofs.RuleSet.Solitary

/-!
# Unique rules are never shared

Whatever is registered, a rule that is marked unique lists one selector, at the top and in the body of every
at-rule. The marked rules of a style are stored under their own selector and block, and no further
registration adds a selector there (`unique_never_shared`). Only the texts of styles must be free of
separators.
-/

namespace StyleEngine

namespace Registration

open Registry

theorem solitary_slots (x : Registration) (hclean : ∀ d debug, x = .style d debug → d.Texts Unseparated) :
    ∀ slot ∈ x.slots, slot.2.Solitary := by
  refine x.forall_slots (fun d debug style he hd c hc => ?_) (fun selector d style _ _ c hc => ?_)
    (fun face _ => .unique "@font-face" _) fun _ name frames _ _ => .keyframes name frames
  · have hnodes := all_flatten_unseparated (hclean d debug he) hd
    exact (RuleSet.lone_ofNodes hnodes (fun _ => ⟨fun _ h => h, fun _ h => h⟩) c hc).solitary
  · have hnodes : ∀ node ∈ literalNodes selector style,
        node.All (fun _ => True) (fun _ => True) (fun _ => True) := fun node _ =>
      FlatNode.all_of_forall (fun _ => trivial) (fun _ => trivial) (fun _ => trivial) node
    exact (RuleSet.lone_ofNodes hnodes (fun h => by cases h) c hc).solitary

end Registration

namespace Registry

variable {xs : List Registration}

theorem solitary_run (hclean : ∀ d debug, .style d debug ∈ xs → d.Texts Unseparated) :
    ∀ slot ∈ (run {} xs).rules, slot.2.Solitary := by
  intro slot hs
  obtain ⟨x, hx, origin, horigin, hev⟩ := mem_slots_run hs
  have hsolitary := x.solitary_slots (fun d debug he => hclean d debug (he ▸ hx)) origin horigin
  refine hev.solitary (x.fits_slots origin horigin) (fun selector block hkey => ?_) hsolitary
  obtain ⟨key?, rule⟩ := origin
  obtain rfl : key? = some (.unique selector block) := hkey
  exact Registration.key_ne_unique horigin

/-- A marked rule of a style has a rule of its own in the registry, which lasts. -/
theorem exists_lasting_of_unique {d : Description} {debug : Bool} {style : NormalStyle} {selector : String}
    {declarations : List Declaration} (hx : .style d debug ∈ xs) (h : d.normalize debug = .ok style)
    (ht : d.Texts Unseparated) (hrule : .rule selector declarations true ∈ style.flatten (root style))
    (hne : declarations ≠ []) :
    ∃ slot ∈ (run {} xs).rules, Lasting slot ∧ ∃ selectors own unique, slot.2 = .style selectors own unique ∧
      Selector.joinList selectors = selector ∧
      Declaration.cssAll own = Declaration.cssAll (Declaration.sort declarations) := by
  obtain ⟨key?, compiled, hcompiled, hblock⟩ :=
    RuleSet.exists_unique_of_mem (all_flatten_unseparated ht h) hrule hne
  obtain ⟨stored, hstored⟩ := exists_rule_of_compiled hx h ht hcompiled
  -- a rule with the mark is merged under its own selector and block
  have hkey : (Rule.style [selector] compiled true).key (RuleKey.ofStyle (root style)) =
      .owned selector (Declaration.cssAll compiled) := by
    simp [Rule.key, RuleKey.ofStyle, RuleKey.sharesRoot, Selector.joinList]
  rw [hkey, hblock] at hstored
  have hfits := fits_run xs _ hstored
  cases stored with
  | atRule | keyframes => exact absurd hfits id
  | style selectors own unique =>
    exact ⟨_, hstored, .owned _ _ _, selectors, own, unique, rfl, hfits.1, hfits.2⟩

/-- Marked rules list one selector. Each marked rule of a style is in the registry with its selector and
block, at a position that no further registration changes. -/
theorem unique_never_shared (xs : List Registration)
    (hclean : ∀ d debug, .style d debug ∈ xs → d.Texts Unseparated) :
    (∀ slot ∈ (run {} xs).rules, slot.2.Solitary) ∧
    ∀ d debug style selector declarations, .style d debug ∈ xs → d.normalize debug = .ok style →
      .rule selector declarations true ∈ style.flatten (root style) → declarations ≠ [] →
      ∃ (i : Nat) (key? : Option RuleKey) (selectors : List String) (own : List Declaration) (unique : Bool),
        Selector.joinList selectors = selector ∧
        Declaration.cssAll own = Declaration.cssAll (Declaration.sort declarations) ∧
        ∀ ys, ((run {} xs).run ys).rules[i]? = some (key?, .style selectors own unique) := by
  refine ⟨solitary_run hclean, fun d debug style selector declarations hx h hrule hne => ?_⟩
  obtain ⟨⟨key?, rule⟩, hmem, hlasting, selectors, own, unique, rfl, hselectors, hblock⟩ :=
    exists_lasting_of_unique hx h (hclean d debug hx) hrule hne
  obtain ⟨i, hi⟩ := List.mem_iff_getElem?.mp hmem
  exact ⟨i, key?, selectors, own, unique, hselectors, hblock, lasting_run hlasting hi⟩

/-- Red that is marked one level down, and red that is not, under one class. -/
def markedRun : List Registration := [.style marked false, .style red false]

theorem unique_never_shared_markedRun :
    (∀ d debug, .style d debug ∈ markedRun → d.Texts Unseparated) ∧
    marked.normalize false = .ok markedStyle ∧
    .rule ".f5cwk4x" redStyle.declarations true ∈ markedStyle.flatten (root markedStyle) ∧
    (∀ slot ∈ (run {} markedRun).rules, slot.2.Solitary) ∧
    ∃ (i : Nat) (key? : Option RuleKey) (selectors : List String) (own : List Declaration) (unique : Bool),
      Selector.joinList selectors = ".f5cwk4x" ∧ Declaration.cssAll own = "color:red" ∧
      ∀ ys, ((run {} markedRun).run ys).rules[i]? = some (key?, .style selectors own unique) := by
  have ht : red.Texts Unseparated := texts_red (by decide) (by decide)
  have hclean : ∀ d debug, .style d debug ∈ markedRun → d.Texts Unseparated := by
    intro d debug hx
    rcases List.mem_cons.mp hx with he | he
    · obtain ⟨rfl, -⟩ := Registration.style.inj he
      exact texts_wrap (by decide) (texts_withUnique ht true)
    · obtain ⟨rfl, -⟩ := Registration.style.inj (List.mem_singleton.mp he)
      exact ht
  have hrule : .rule ".f5cwk4x" redStyle.declarations true ∈ markedStyle.flatten (root markedStyle) := by
    have hclass : Selector.compose (root markedStyle) "&" = ".f5cwk4x" := by decide +kernel
    refine List.mem_cons_of_mem _ (mem_flattenNested.mpr ⟨_, List.mem_singleton_self _, .inr ⟨rfl, ?_⟩⟩)
    rw [hclass]
    exact List.mem_cons_self
  have h := unique_never_shared markedRun hclean
  obtain ⟨i, key?, selectors, own, unique, hselectors, hblock, hkept⟩ :=
    h.2 marked false markedStyle _ _ List.mem_cons_self rfl hrule (List.cons_ne_nil _ _)
  exact ⟨hclean, rfl, hrule, h.1, i, key?, selectors, own, unique, hselectors, hblock, hkept⟩

end Registry

end StyleEngine
