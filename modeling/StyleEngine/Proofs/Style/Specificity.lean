import Mathlib
import StyleEngine.Proofs.Selector.Ampersands
import StyleEngine.Proofs.Style.Texts

/-!
# Specificity

Each `&` of a rule stands for the class once, so their number is the weight of the rule in the cascade. The rules
of a description come from its sites in order, with one more rule for every priority (`Description.origins`). On the
way to a site, every description multiplies the number by its priority and one, and every key by what it branches
into (`ampersands_multiply`).
-/

namespace StyleEngine

/-! ## Rules of flat nodes -/

/-- A flat rule, wherever it stands. -/
structure FlatRule where
  selector : String
  declarations : List Declaration
  unique : Bool

namespace FlatNode

mutual

/-- The rules of a node in order, those under at-rules included. -/
def rules : FlatNode → List FlatRule
  | .rule selector declarations unique => [⟨selector, declarations, unique⟩]
  | .atRule _ children => allRules children

def allRules : List FlatNode → List FlatRule
  | [] => []
  | node :: rest => node.rules ++ allRules rest

end

theorem allRules_append (first second : List FlatNode) :
    allRules (first ++ second) = allRules first ++ allRules second := by
  induction first with
  | nil => rfl
  | cons node rest ih => rw [List.cons_append, allRules, allRules, ih, List.append_assoc]

end FlatNode

/-! ## Sites -/

/-- A place in a description: the descriptions on the way to it, each with the key that leads on, and the one that
stands there. -/
structure Site where
  above : List (Description × String)
  here : Description

namespace Site

/-- The site in the parent of the description. -/
def under (parent : Description) (key : String) (site : Site) : Site :=
  { site with above := (parent, key) :: site.above }

/-- The descriptions from the top to the site. -/
def chain (site : Site) : List Description := site.above.map Prod.fst ++ [site.here]

/-- The keys that lead to the site. -/
def path (site : Site) : List String := site.above.map Prod.snd

/-- What the descriptions on the way and the keys multiply the number of `&` by. At-rules do not count. -/
def factor (site : Site) : Nat :=
  (site.chain.map fun d => d.priority + 1).prod *
    ((site.path.filter fun key => !Selector.isAtRule key).map Selector.branching).prod

/-- The keys lead from the description to the site. -/
inductive Of : Description → Site → Prop
  | here (d : Description) : Of d ⟨[], d⟩
  | under {d child : Description} {key : String} {site : Site} (hchild : (key, child) ∈ d.nested)
      (h : Of child site) : Of d (site.under d key)

theorem factor_here (d : Description) : factor ⟨[], d⟩ = d.priority + 1 := by
  simp [factor, chain, path]

theorem factor_under (d : Description) (key : String) (site : Site) :
    (site.under d key).factor = (d.priority + 1) * Selector.keyFactor key * site.factor := by
  have hchain : (site.under d key).chain = d :: site.chain := rfl
  have hpath : (site.under d key).path = key :: site.path := rfl
  have hkeys : (((key :: site.path).filter fun key => !Selector.isAtRule key).map Selector.branching).prod =
      Selector.keyFactor key * ((site.path.filter fun key => !Selector.isAtRule key).map Selector.branching).prod := by
    rw [List.filter_cons, Selector.keyFactor]
    cases Selector.isAtRule key <;> simp
  rw [factor, factor, hchain, hpath, hkeys, List.map_cons, List.prod_cons]
  ring

end Site

namespace Description

mutual

/-- Where the rules of a description come from, in order. The level that a priority adds comes from no site. -/
def origins : Description → List (Option Site)
  | ⟨declarations, nested, unique?, debugName?, priority?⟩ =>
    (if priority?.getD 0 = 0 then [] else [none]) ++
      some ⟨[], ⟨declarations, nested, unique?, debugName?, priority?⟩⟩ ::
        originsNested ⟨declarations, nested, unique?, debugName?, priority?⟩ nested

def originsNested (parent : Description) : List (String × Description) → List (Option Site)
  | [] => []
  | (key, child) :: rest => child.origins.map (Option.map (Site.under parent key)) ++ originsNested parent rest

end

mutual

/-- The sites of a description are the places that keys lead to. -/
theorem mem_origins (d : Description) (site : Site) : some site ∈ d.origins ↔ Site.Of d site := by
  cases d with
  | mk declarations nested unique? debugName? priority? =>
    have hlevel : some site ∉ if priority?.getD 0 = 0 then [] else [(none : Option Site)] := by
      split <;> simp
    rw [origins, List.mem_append, List.mem_cons, mem_originsNested]
    constructor
    · rintro (h | h | ⟨key, child, inner, hchild, hinner, rfl⟩)
      · exact absurd h hlevel
      · obtain rfl := Option.some.inj h
        exact .here _
      · exact .under hchild hinner
    · intro h
      cases h with
      | here => exact .inr (.inl rfl)
      | under hchild hinner => exact .inr (.inr ⟨_, _, _, hchild, hinner, rfl⟩)

theorem mem_originsNested (parent : Description) (nested : List (String × Description)) (site : Site) :
    some site ∈ originsNested parent nested ↔
      ∃ key child inner, (key, child) ∈ nested ∧ Site.Of child inner ∧ inner.under parent key = site := by
  cases nested with
  | nil => simp [originsNested]
  | cons first rest =>
    obtain ⟨key, child⟩ := first
    have hfirst : some site ∈ child.origins.map (Option.map (Site.under parent key)) ↔
        ∃ inner, Site.Of child inner ∧ inner.under parent key = site := by
      simp only [List.mem_map, Option.map_eq_some_iff]
      constructor
      · rintro ⟨_, hinner, inner, rfl, h⟩
        exact ⟨inner, (mem_origins child inner).mp hinner, h⟩
      · rintro ⟨inner, hinner, h⟩
        exact ⟨some inner, (mem_origins child inner).mpr hinner, inner, rfl, h⟩
    rw [originsNested, List.mem_append, hfirst, mem_originsNested parent rest site]
    constructor
    · rintro (⟨inner, hinner, h⟩ | ⟨k, c, inner, hmem, hinner, h⟩)
      · exact ⟨key, child, inner, List.mem_cons_self, hinner, h⟩
      · exact ⟨k, c, inner, List.mem_cons_of_mem _ hmem, hinner, h⟩
    · rintro ⟨k, c, inner, hmem, hinner, h⟩
      rcases List.mem_cons.mp hmem with he | hmem
      · obtain ⟨rfl, rfl⟩ := Prod.mk.inj he
        exact .inl ⟨inner, hinner, h⟩
      · exact .inr ⟨k, c, inner, hmem, hinner, h⟩

end

variable {debug : Bool} {style : NormalStyle} {styles : List (String × NormalStyle)} {n : Nat} {root : String}

/-- The rule carries the declarations of its origin, and its selector mentions the parent as often as the origin
says, where the root does so `n` times. A rule from no site declares nothing. -/
def Carries (n : Nat) : Option Site → FlatRule → Prop
  | none, rule => rule.declarations = []
  | some site, rule =>
    renderDeclarations site.here.declarations = .ok rule.declarations ∧ rule.unique = site.here.isUnique ∧
      Selector.ampersands rule.selector = n * site.factor

/-- The selector of a description of that priority under a root. -/
def raised (root : String) (priority : Nat) : String :=
  if priority = 0 then root else Selector.compose root (repeatParent (priority + 1))

theorem ampersands_raised (root : String) (priority : Nat) :
    Selector.ampersands (raised root priority) = Selector.ampersands root * (priority + 1) := by
  unfold raised
  split
  · next h => rw [h, Nat.zero_add, Nat.mul_one]
  · have hcount : Selector.ampersands (repeatParent (priority + 1)) = priority + 1 := by
      simp [Selector.ampersands, repeatParent]
    have hsplit : Selector.split (repeatParent (priority + 1)) = [repeatParent (priority + 1)] := by
      rw [Selector.split, repeatParent, String.toList_ofList, Selector.pieces_replicate, List.map_singleton,
        Selector.trimChars_replicate]
    have hbranching : Selector.branching (repeatParent (priority + 1)) = priority + 1 := by
      rw [Selector.branching, hsplit, List.map_singleton, List.sum_singleton, hcount]
      exact Nat.max_eq_right (Nat.le_add_left 1 priority)
    rw [Selector.ampersands_compose, hbranching]

theorem isAtRule_repeatParent (n : Nat) : Selector.isAtRule (repeatParent (n + 1)) = false := by
  simp [Selector.isAtRule, repeatParent, List.replicate_succ]

theorem rules_flattenNested (root key : String) (style : NormalStyle) (rest : List (String × NormalStyle)) :
    FlatNode.allRules (NormalStyle.flattenNested root ((key, style) :: rest)) =
      FlatNode.allRules (style.flatten (Selector.below root key)) ++
        FlatNode.allRules (NormalStyle.flattenNested root rest) := by
  rw [NormalStyle.flattenNested, FlatNode.allRules_append, Selector.below]
  split
  · rw [FlatNode.allRules, FlatNode.allRules, FlatNode.rules, List.append_nil]
  · rfl

/-- A priority puts a rule without declarations in front and repeats the root below it. -/
theorem rules_raisePriority (root : String) (priority : Nat) (declarations : List Declaration)
    (styles : List (String × NormalStyle)) (unique : Bool) (debugName? : Option String) :
    FlatNode.allRules ((raisePriority priority ⟨declarations, styles, unique, debugName?⟩).flatten root) =
      (if priority = 0 then [] else [⟨root, [], false⟩]) ++
        ⟨raised root priority, declarations, unique⟩ ::
          FlatNode.allRules (NormalStyle.flattenNested (raised root priority) styles) := by
  unfold raisePriority raised
  split
  · rfl
  · have hbelow : Selector.below root (repeatParent (priority + 1)) =
        Selector.compose root (repeatParent (priority + 1)) :=
      if_neg (by rw [isAtRule_repeatParent]; exact Bool.false_ne_true)
    rw [NormalStyle.flatten, FlatNode.allRules, rules_flattenNested, hbelow]
    simp [NormalStyle.flattenNested, NormalStyle.flatten, FlatNode.allRules, FlatNode.rules]

theorem Carries.under {origin? : Option Site} {rule : FlatRule} {parent : Description} {key : String}
    (h : Carries (n * (parent.priority + 1) * Selector.keyFactor key) origin? rule) :
    Carries n (origin?.map (Site.under parent key)) rule := by
  cases origin? with
  | none => exact h
  | some site =>
    obtain ⟨hdeclarations, hunique, hcount⟩ := h
    refine ⟨hdeclarations, hunique, ?_⟩
    rw [hcount, Site.factor_under]
    ring

mutual

/-- Rule by rule, what a description is flattened to carries its origins. -/
theorem forall₂_origins (d : Description) {depth : Nat} {style : NormalStyle} (root : String)
    (h : d.normalizeAt debug depth = .ok style) :
    List.Forall₂ (Carries (Selector.ampersands root)) d.origins (FlatNode.allRules (style.flatten root)) := by
  cases d with
  | mk declarations nested unique? debugName? priority? =>
    unfold normalizeAt at h
    split at h
    · cases h
    split at h
    · cases h
    next rendered hrendered =>
    split at h
    · cases h
    next styles hstyles =>
    obtain rfl := Except.ok.inj h
    rw [origins, rules_raisePriority]
    have hcount := ampersands_raised root (priority?.getD 0)
    refine List.rel_append ?_ (.cons ⟨hrendered, rfl, ?_⟩ (forall₂_originsNested _ nested hcount hstyles))
    · split
      · exact .nil
      · exact .cons rfl .nil
    · rw [Site.factor_here]
      exact hcount

theorem forall₂_originsNested (parent : Description) (nested : List (String × Description)) {depth : Nat}
    {styles : List (String × NormalStyle)} {n : Nat} {root : String}
    (hroot : Selector.ampersands root = n * (parent.priority + 1))
    (h : normalizeAll debug depth nested = .ok styles) :
    List.Forall₂ (Carries n) (originsNested parent nested)
      (FlatNode.allRules (NormalStyle.flattenNested root styles)) := by
  cases nested with
  | nil =>
    unfold normalizeAll at h
    obtain rfl := Except.ok.inj h
    exact .nil
  | cons first rest =>
    obtain ⟨key, child⟩ := first
    unfold normalizeAll at h
    split at h
    · cases h
    next style hstyle =>
    obtain ⟨styles', hstyles, rfl⟩ := ok_of_map_ok h
    rw [originsNested, rules_flattenNested]
    refine List.rel_append ?_ (forall₂_originsNested parent rest hroot hstyles)
    have hchild := forall₂_origins child (Selector.below root key) hstyle
    rw [Selector.ampersands_below, hroot] at hchild
    exact List.forall₂_map_left_iff.mpr (hchild.imp fun _ _ hcarries => hcarries.under)

end

/-- Each rule that a description is flattened to under `&` carries the declarations of one of its sites, or none
where a priority added a level. The number of `&` in its selector is the product of priority and one over the
descriptions on the way to the site, times the product of what the keys branch into. -/
theorem ampersands_multiply {d : Description} {debug : Bool} {style : NormalStyle}
    (h : d.normalize debug = .ok style) :
    List.Forall₂ (Carries 1) d.origins (FlatNode.allRules (style.flatten "&")) ∧
      ∀ site, some site ∈ d.origins ↔ Site.Of d site :=
  ⟨forall₂_origins d "&" h, mem_origins d⟩

/-- Priorities at two levels around a selector list, and below them an at-rule and a list with `&` twice. -/
def stacked : Description :=
  { declarations := [("color", .text "red")], priority? := some 1
    nested := [("&:hover, p", { declarations := [("color", .text "blue")], priority? := some 2
                                nested := [("@media print", { nested := [("&& , i", { unique? := some true })] })] })] }

def stackedStyle : NormalStyle :=
  { nested := [("&&", { declarations := [⟨"color", "red"⟩]
                        nested := [("&:hover, p", { nested := [("&&&", {
                          declarations := [⟨"color", "blue"⟩]
                          nested := [("@media print", { nested := [("&& , i", { unique := true })] })] })] })] })] }

theorem ampersands_multiply_stacked :
    stacked.normalize false = .ok stackedStyle ∧
    stacked.origins.map (Option.map Site.factor) = [none, some 2, none, some 12, some 12, some 36] ∧
    List.Forall₂ (Carries 1) stacked.origins (FlatNode.allRules (stackedStyle.flatten "&")) ∧
    (FlatNode.allRules (stackedStyle.flatten "&")).map (fun rule => Selector.ampersands rule.selector) =
      [1, 2, 4, 12, 12, 36] := by
  have hok : stacked.normalize false = .ok stackedStyle := rfl
  exact ⟨hok, by decide +kernel, (ampersands_multiply hok).1, by decide +kernel⟩

end Description

end StyleEngine
