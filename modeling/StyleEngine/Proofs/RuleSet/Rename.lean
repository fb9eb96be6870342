import Mathlib.Data.List.Basic
import StyleEngine.Proofs.RuleSet.Reading
import StyleEngine.Proofs.Style.Rename

/-!
# Rule sets of renamed nodes

Nodes of ordinary texts in which nothing is marked unique are told by the text of their rule set as
far as it matters: if the texts agree, the outlines still agree when every selector is rewritten in
the same way (`outline_renameAll_of_css`).
-/

namespace StyleEngine

/-- What one view tells of another is a function of it. -/
theorem exists_factor {α β γ : Type} [Nonempty γ] {p : α → Prop} {f : α → β} {g : α → γ}
    (h : ∀ a b, p a → p b → f a = f b → g a = g b) : ∃ τ : β → γ, ∀ a, p a → τ (f a) = g a := by
  have hvalue : ∀ b, ∃ c, ∀ a, p a → f a = b → g a = c := by
    intro b
    by_cases hb : ∃ a, p a ∧ f a = b
    · obtain ⟨a, ha, rfl⟩ := hb
      exact ⟨g a, fun a' ha' he => h a' a ha' ha he⟩
    · obtain ⟨c⟩ := ‹Nonempty γ›
      exact ⟨c, fun a ha he => absurd ⟨a, ha, he⟩ hb⟩
  obtain ⟨τ, hτ⟩ := Classical.skolem.mp hvalue
  exact ⟨τ, fun a ha => (hτ (f a) a ha rfl).symm⟩

namespace RuleSet

variable {S A : String → Prop} {D : Declaration → Prop} {σ τ : String → String} {nodes : List FlatNode}

/-! ## Rules without marks -/

theorem told_slotOf? {node : FlatNode} (h : node.Unmarked) {slot : Option RuleKey × Rule}
    (hs : slotOf? .byDeclarations node = some slot) : ∃ key, slot.1 = some key ∧ key.Told := by
  cases h with
  | rule selector declarations =>
    cases slotOf_of_some hs
    exact ⟨_, rfl, trivial⟩
  | atRule =>
    cases slotOf_of_some hs
    exact ⟨_, rfl, trivial⟩

theorem told_ofNodes (h : ∀ node ∈ nodes, node.Unmarked) :
    ∀ slot ∈ ofNodes .byDeclarations nodes, ∃ key, slot.1 = some key ∧ key.Told :=
  ofNodes_induction (P := fun slot => ∃ key, slot.1 = some key ∧ key.Told)
    (fun _ _ _ _ _ hslot => hslot) fun node hn _ hslot => told_slotOf? (h node hn) hslot

theorem framed_ofNodes (h : ∀ node ∈ nodes, node.All S D A) (hu : ∀ node ∈ nodes, node.Unmarked) :
    ∀ slot ∈ ofNodes .byDeclarations nodes, Framed S D A slot :=
  fun slot hs => ⟨told_ofNodes hu slot hs, fits_ofNodes slot hs, all_ofNodes h slot hs⟩

/-! ## Renaming and compiling -/

theorem isEmpty_ofNodes (nodes : List FlatNode) :
    (ofNodes .byDeclarations nodes).isEmpty =
      nodes.all fun node => (slotOf? .byDeclarations node).isNone := by
  rw [ofNodes_eq_depositAll, Bool.eq_iff_iff, List.isEmpty_iff, List.all_eq_true]
  constructor
  · intro he node hn
    cases hslot : slotOf? .byDeclarations node with
    | none => rfl
    | some slot =>
      obtain ⟨key?, rule⟩ := slot
      obtain ⟨key, rfl, -⟩ := key_of_slotOf? hslot
      obtain ⟨stored, hs, -⟩ := exists_holds_depositAll [] (List.mem_filterMap.mpr ⟨node, hn, hslot⟩)
      rw [he] at hs
      exact absurd hs List.not_mem_nil
  · intro hall
    have hnil : nodes.filterMap (slotOf? .byDeclarations) = [] :=
      List.filterMap_eq_nil_iff.mpr fun node hn => Option.isNone_iff_eq_none.mp (hall node hn)
    rw [hnil]
    rfl

mutual

/-- Renaming neither empties a node nor fills it. -/
theorem isNone_slotOf?_rename (σ : String → String) :
    ∀ node : FlatNode, (slotOf? .byDeclarations (node.rename σ)).isNone = (slotOf? .byDeclarations node).isNone
  | .rule selector declarations unique => by
    rw [FlatNode.rename, slotOf?, slotOf?]
    split <;> rfl
  | .atRule rule children => by
    have hbody := isEmpty_ofNodes_renameAll σ children
    simp only [FlatNode.rename, slotOf?, hbody]
    split <;> rfl

theorem isEmpty_ofNodes_renameAll (σ : String → String) :
    ∀ nodes : List FlatNode,
      (ofNodes .byDeclarations (FlatNode.renameAll σ nodes)).isEmpty =
        (ofNodes .byDeclarations nodes).isEmpty
  | [] => rfl
  | node :: rest => by
    have hrest := isEmpty_ofNodes_renameAll σ rest
    rw [isEmpty_ofNodes, isEmpty_ofNodes] at hrest ⊢
    rw [FlatNode.renameAll, List.all_cons, List.all_cons, hrest, isNone_slotOf?_rename σ node]

end

/-- The outline of a renamed node, when `τ` tells the texts of the renamed bodies. -/
theorem outline_slotOf?_rename {node : FlatNode} (hu : node.Unmarked)
    (hτ : ∀ rule children, node = .atRule rule children → τ (css (ofNodes .byDeclarations children)) =
      css (ofNodes .byDeclarations (FlatNode.renameAll σ children))) :
    (slotOf? .byDeclarations (node.rename σ)).map outline =
      (slotOf? .byDeclarations node).map (refit σ τ) := by
  cases hu with
  | rule selector declarations =>
    rw [FlatNode.rename, slotOf?, slotOf?]
    split <;> rfl
  | @atRule rule children _ =>
    have hbody := isEmpty_ofNodes_renameAll σ children
    simp only [FlatNode.rename, slotOf?, hbody]
    split
    · rfl
    · simp only [Option.map_some, refit, hτ rule children rfl]
      rfl

/-- The outline of renamed nodes is made of the rule set of the nodes. -/
theorem outline_renameAll (h : ∀ node ∈ nodes, node.All S D A) (hS : ∀ s, S s → AllChars Unseparated s)
    (hD : ∀ d, D d → d.Texts Unseparated) (hA : ∀ a, A a → AllChars Unseparated a)
    (hu : ∀ node ∈ nodes, node.Unmarked)
    (hτ : ∀ rule children, .atRule rule children ∈ nodes → τ (css (ofNodes .byDeclarations children)) =
      css (ofNodes .byDeclarations (FlatNode.renameAll σ children))) :
    (ofNodes .byDeclarations (FlatNode.renameAll σ nodes)).map outline =
      (depositAll [] ((ofNodes .byDeclarations nodes).map (refit σ τ))).1 := by
  have hslots : ∀ x ∈ nodes.filterMap (slotOf? .byDeclarations),
      Fits x ∧ ∃ key, x.1 = some key ∧ key.Told ∧ key.Clean := by
    intro x hx
    obtain ⟨node, hn, hslot⟩ := List.mem_filterMap.mp hx
    obtain ⟨key, hkey, hk⟩ := told_slotOf? (hu node hn) hslot
    have hclean := (all_slotOf? (h node hn) hslot).mono hS hD hA
    have hfits := fits_slotOf? hslot
    refine ⟨hfits, key, hkey, hk, ?_⟩
    obtain ⟨key?, rule⟩ := x
    obtain rfl : key? = some key := hkey
    exact clean_of_fits hfits hk hclean
  have hrenamed : ∀ x ∈ (FlatNode.renameAll σ nodes).filterMap (slotOf? .byDeclarations),
      Fits x ∧ ∃ key, x.1 = some key ∧ key.Told := by
    intro x hx
    obtain ⟨node, hn, hslot⟩ := List.mem_filterMap.mp hx
    rw [FlatNode.renameAll_eq_map] at hn
    obtain ⟨origin, ho, rfl⟩ := List.mem_map.mp hn
    exact ⟨fits_slotOf? hslot, told_slotOf? ((hu origin ho).rename σ) hslot⟩
  have hmap : ((FlatNode.renameAll σ nodes).filterMap (slotOf? .byDeclarations)).map outline =
      (nodes.filterMap (slotOf? .byDeclarations)).map (refit σ τ) := by
    rw [FlatNode.renameAll_eq_map, List.filterMap_map, List.map_filterMap, List.map_filterMap]
    refine List.filterMap_congr fun node hn => ?_
    exact outline_slotOf?_rename (hu node hn) fun rule children he => hτ rule children (he ▸ hn)
  have hnone : ∀ slot ∈ ([] : RuleSet), Fits slot := fun _ hm => absurd hm List.not_mem_nil
  rw [ofNodes_eq_depositAll, ofNodes_eq_depositAll, map_outline_depositAll hnone hrenamed, hmap,
    depositAll_refit hnone List.nodup_nil hslots]
  rfl

/-! ## What the text tells -/

end RuleSet

/-- A node of ordinary texts in which nothing is marked unique. -/
structure FlatNode.Legible (node : FlatNode) : Prop where
  ordinary : node.All Selector.Simple (Declaration.Texts Ordinary) (AllChars Ordinary)
  unmarked : node.Unmarked

theorem FlatNode.Legible.children {rule : String} {children : List FlatNode}
    (h : (FlatNode.atRule rule children).Legible) : ∀ child ∈ children, child.Legible := by
  obtain ⟨ho, hu⟩ := h
  cases ho with
  | atRule _ hc =>
    cases hu with
    | atRule hm => exact fun child hmem => ⟨hc child hmem, hm child hmem⟩

namespace RuleSet

variable {σ : String → String}

theorem ordinarySlot_ofNodes {nodes : List FlatNode} (h : ∀ node ∈ nodes, node.Legible) :
    ∀ slot ∈ ofNodes .byDeclarations nodes, OrdinarySlot slot :=
  framed_ofNodes (fun node hn => (h node hn).ordinary) fun node hn => (h node hn).unmarked

/-- Selectors that stay in being keep the rules from being bare. -/
theorem framed_renameAll (hσ : ∀ s, Selector.Simple s → σ s ≠ "") {nodes : List FlatNode}
    (h : ∀ node ∈ nodes, node.Legible) :
    ∀ slot ∈ ofNodes .byDeclarations (FlatNode.renameAll σ nodes),
      Framed (· ≠ "") (Declaration.Texts Ordinary) (AllChars Ordinary) slot := by
  have hmem : ∀ {node}, node ∈ FlatNode.renameAll σ nodes → ∃ origin ∈ nodes, origin.rename σ = node := by
    intro node hn
    rw [FlatNode.renameAll_eq_map] at hn
    exact List.mem_map.mp hn
  refine framed_ofNodes (fun node hn => ?_) fun node hn => ?_
  · obtain ⟨origin, ho, rfl⟩ := hmem hn
    exact (h origin ho).ordinary.rename hσ
  · obtain ⟨origin, ho, rfl⟩ := hmem hn
    exact (h origin ho).unmarked.rename σ

theorem outline_renameAll_of_css_lt (hσ : ∀ s, Selector.Simple s → σ s ≠ "") (n : Nat) :
    ∀ first second : List FlatNode, sizeOf first < n → sizeOf second < n →
      (∀ node ∈ first, node.Legible) → (∀ node ∈ second, node.Legible) →
      css (ofNodes .byDeclarations first) = css (ofNodes .byDeclarations second) →
      (ofNodes .byDeclarations (FlatNode.renameAll σ first)).map outline =
        (ofNodes .byDeclarations (FlatNode.renameAll σ second)).map outline := by
  -- by the size, as the bodies of at-rules are told by their texts as well
  induction n with
  | zero => exact fun _ _ h => absurd h (Nat.not_lt_zero _)
  | succ n ih =>
    obtain ⟨τ, hτ⟩ : ∃ τ : String → String, ∀ nodes : List FlatNode,
        (sizeOf nodes < n ∧ ∀ node ∈ nodes, node.Legible) →
        τ (css (ofNodes .byDeclarations nodes)) = css (ofNodes .byDeclarations (FlatNode.renameAll σ nodes)) :=
      exists_factor fun first second h₁ h₂ he =>
        css_of_outline (framed_renameAll hσ h₁.2) (framed_renameAll hσ h₂.2) (fun _ h => h)
          (ih first second h₁.1 h₂.1 h₁.2 h₂.2 he)
    have hrefit : ∀ nodes : List FlatNode, sizeOf nodes < n + 1 → (∀ node ∈ nodes, node.Legible) →
        (ofNodes .byDeclarations (FlatNode.renameAll σ nodes)).map outline =
          (depositAll [] (((ofNodes .byDeclarations nodes).map outline).map (refit σ τ))).1 := by
      intro nodes hsize h
      rw [outline_renameAll (fun node hn => (h node hn).ordinary) (fun _ hs => hs.2.1.mono fun _ hc => hc.unseparated)
        (fun _ hd => hd.mono fun _ hc => hc.unseparated)
        (fun _ ha => ha.mono fun _ hc => hc.unseparated) (fun node hn => (h node hn).unmarked)
        fun rule children hm => hτ children ⟨?_, (h _ hm).children⟩, List.map_map]
      · congr 2
        refine List.map_congr_left fun slot hs => ?_
        obtain ⟨key, hkey, hk⟩ := (ordinarySlot_ofNodes h slot hs).told
        exact (refit_outline hkey hk σ τ).symm
      · have hlt := List.sizeOf_lt_of_mem hm
        simp only [FlatNode.atRule.sizeOf_spec] at hlt
        omega
    intro first second hs₁ hs₂ h₁ h₂ he
    rw [hrefit first hs₁ h₁, hrefit second hs₂ h₂,
      outline_of_css (ordinarySlot_ofNodes h₁) (ordinarySlot_ofNodes h₂) he]

/-- Legible nodes of one text have one outline under every renaming. -/
theorem outline_renameAll_of_css (hσ : ∀ s, Selector.Simple s → σ s ≠ "") {first second : List FlatNode}
    (h₁ : ∀ node ∈ first, node.Legible) (h₂ : ∀ node ∈ second, node.Legible)
    (he : css (ofNodes .byDeclarations first) = css (ofNodes .byDeclarations second)) :
    (ofNodes .byDeclarations (FlatNode.renameAll σ first)).map outline =
      (ofNodes .byDeclarations (FlatNode.renameAll σ second)).map outline :=
  outline_renameAll_of_css_lt hσ (sizeOf first + sizeOf second + 1) first second (by omega) (by omega) h₁ h₂ he

/-! ## A marked root -/

/-- A slot whose key does not come stays in front. -/
theorem depositAll_cons_of_not_holds {first : Option RuleKey × Rule}
    {xs : List (Option RuleKey × Rule)} (h : ∀ x ∈ xs, ∀ key, x.1 = some key → holds key first = false)
    (rules : RuleSet) : (depositAll (first :: rules) xs).1 = first :: (depositAll rules xs).1 := by
  induction xs generalizing rules with
  | nil => rfl
  | cons x rest ih =>
    have hrest := ih fun y hy => h y (List.mem_cons_of_mem _ hy)
    have hx : (deposit (first :: rules) x).1 = first :: (deposit rules x).1 := by
      obtain ⟨key?, rule⟩ := x
      cases key? with
      | none => rfl
      | some key =>
        have hno : ¬ holds key first = true :=
          Bool.eq_false_iff.mp (h (some key, rule) List.mem_cons_self key rfl)
        rw [deposit_cons, if_neg hno]
    rw [depositAll_cons, depositAll_cons, hx, hrest]

/-- A marked rule in front of rules without marks is compiled on its own. -/
theorem ofNodes_cons_unique {selector : String} {declarations : List Declaration} {rest : List FlatNode}
    (hne : declarations ≠ []) (hu : ∀ node ∈ rest, node.Unmarked) :
    ofNodes .byDeclarations (.rule selector declarations true :: rest) =
      (some (.unique selector (Declaration.cssAll (Declaration.sort declarations))),
        .style [selector] (Declaration.sort declarations) true) :: ofNodes .byDeclarations rest := by
  have hslot : slotOf? .byDeclarations (.rule selector declarations true) =
      some (some (.unique selector (Declaration.cssAll (Declaration.sort declarations))),
        .style [selector] (Declaration.sort declarations) true) := by
    rw [slotOf?, if_neg (by simpa using hne)]
    rfl
  rw [ofNodes_eq_depositAll, List.filterMap_cons, hslot, ofNodes_eq_depositAll]
  refine depositAll_cons_of_not_holds (fun x hx key hkey => Bool.eq_false_iff.mpr fun hh => ?_) []
  obtain ⟨node, hn, hs⟩ := List.mem_filterMap.mp hx
  obtain ⟨k, hk, htold⟩ := told_slotOf? (hu node hn) hs
  obtain rfl := Option.some.inj (hkey.symm.trans hk)
  have ht := holds_eq_true.mp hh
  cases key with
  | shared block => cases RuleKey.eq_of_text_shared ht
  | atRule rule body =>
    rw [RuleKey.text_eq_iff] at ht
    cases ht
  | unique | owned | literal | keyframes => exact htold

end RuleSet

end StyleEngine
