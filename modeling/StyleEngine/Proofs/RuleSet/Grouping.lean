import StyleEngine.Proofs.Keyed.Storing
import StyleEngine.Proofs.RuleSet.Outline
import StyleEngine.Proofs.RuleSet.Solitary

/-!
# Folding is grouping

The nodes of a style are folded into its rule set one by one, each looking for the key under which it meets an earlier
one. What comes out can be said at once: the nodes fall into groups, each group has one entry, and the entries stand in
the order of their first nodes (`ofNodes_eq_grouping`). Separators in a text could make two keys look alike, which is
why the nodes are without them.
-/

namespace StyleEngine

namespace RuleSet

/-! ## Groups -/

/-- The entry of a group. A shared block lists the distinct selectors of its rules in the order in which they come
first; in every other group the rules are written alike, and the first one stands for all. -/
def entry (key : RuleKey) (rules : List Rule) : Rule :=
  match key, rules with
  | .shared _, .style _ declarations unique :: _ =>
    .style (rules.flatMap Rule.selectors).eraseDups declarations unique
  | _, rule :: _ => rule
  | _, [] => .style [] [] false

/-- The rules that belong to a group, in order. -/
def group (members : List (RuleKey × Rule)) (key : RuleKey) : List Rule :=
  (members.filter fun m => m.1 == key).map Prod.snd

/-- One entry for each group, in the order in which the groups come first. -/
def grouped (members : List (RuleKey × Rule)) : RuleSet :=
  (members.map Prod.fst).eraseDups.map fun key => (some key, entry key (group members key))

mutual

/-- The group of a node, and the rule that the node makes. A rule belongs with the rules of its sorted block, and with
its selector alone if it is unique; an at-rule belongs with those of its text around a body that is written alike. A
node without declarations, or with nothing in its body, has no group. -/
def member? : FlatNode → Option (RuleKey × Rule)
  | .rule selector declarations unique =>
    if declarations.isEmpty then none
    else
      let sorted := Declaration.sort declarations
      let block := Declaration.cssAll sorted
      some (if unique then .unique selector block else .shared block, .style [selector] sorted unique)
  | .atRule rule children =>
    let body := grouped (members children)
    if body.isEmpty then none else some (.atRule rule (css body), .atRule rule body)

def members : List FlatNode → List (RuleKey × Rule)
  | [] => []
  | node :: rest => (member? node).toList ++ members rest

end

/-- The groups of nodes. The bodies of at-rules are grouped in the same way. -/
def grouping (nodes : List FlatNode) : RuleSet := grouped (members nodes)

/-! ## One more member -/

/-- What a rule and its group have in common. -/
inductive Member : RuleKey → Rule → Prop
  | shared (selector : String) (declarations : List Declaration) :
      Member (.shared (Declaration.cssAll declarations)) (.style [selector] declarations false)
  | unique (selector : String) (declarations : List Declaration) :
      Member (.unique selector (Declaration.cssAll declarations)) (.style [selector] declarations true)
  | atRule (rule : String) (body : RuleSet) : Member (.atRule rule (css body)) (.atRule rule body)

variable {key : RuleKey} {rule : Rule} {rules : List Rule} {ms : List (RuleKey × Rule)}

theorem entry_singleton (h : Member key rule) : entry key [rule] = rule := by
  cases h with
  | shared selector declarations => simp [entry, Rule.selectors, List.eraseDups_cons]
  | unique | atRule => rfl

theorem addSelectors_eraseDups (selectors : List String) (s : String) :
    (Rule.addSelectors selectors.eraseDups [s]).1 = (selectors ++ [s]).eraseDups := by
  rw [Keyed.eraseDups_concat]
  split
  · next hs => rw [Rule.addSelectors_of_mem (List.mem_eraseDups.mpr hs), Rule.addSelectors_nil]
  · next hs => rw [Rule.addSelectors_of_not_mem (fun h => hs (List.mem_eraseDups.mp h)), Rule.addSelectors_nil]

/-- A rule that comes under the key of a group is one more rule of the group. -/
theorem revise_entry (hne : rules ≠ []) (hrules : ∀ r ∈ rules, Member key r) (h : Member key rule) :
    (key.revise rule (entry key rules)).1 = entry key (rules ++ [rule]) := by
  obtain ⟨first, rest, rfl⟩ := List.exists_cons_of_ne_nil hne
  have hfirst : Member key first := hrules first List.mem_cons_self
  cases h with
  | shared selector declarations =>
    generalize hkey : RuleKey.shared (Declaration.cssAll declarations) = key at *
    cases hfirst with
    | unique | atRule => cases hkey
    | shared s ds =>
      simp only [entry, RuleKey.revise, Rule.share, List.cons_append, addSelectors_eraseDups, List.flatMap_cons,
        List.flatMap_append, List.flatMap_nil, Rule.selectors, List.append_assoc, List.append_nil]
  | unique selector declarations =>
    generalize hkey : RuleKey.unique selector (Declaration.cssAll declarations) = key at *
    cases hfirst with
    | shared | atRule => cases hkey
    | unique s ds =>
      obtain ⟨rfl, -⟩ := RuleKey.unique.inj hkey
      simp only [entry, RuleKey.revise, Rule.share, List.cons_append, Rule.addSelectors_of_subset fun _ hm => hm]
  | atRule r body =>
    generalize hkey : RuleKey.atRule r (css body) = key at *
    cases hfirst with
    | shared | unique => cases hkey
    | atRule r' body' => rfl

/-! ## Depositing members -/

theorem group_concat (ms : List (RuleKey × Rule)) (m : RuleKey × Rule) (key : RuleKey) :
    group (ms ++ [m]) key = if m.1 = key then group ms key ++ [m.2] else group ms key := by
  rw [group, List.filter_append, List.map_append]
  by_cases hm : m.1 = key <;> simp [group, hm]

theorem group_ne_nil (h : key ∈ ms.map Prod.fst) : group ms key ≠ [] := by
  obtain ⟨m, hm, rfl⟩ := List.mem_map.mp h
  exact List.ne_nil_of_mem (List.mem_map_of_mem (List.mem_filter.mpr ⟨hm, beq_self_eq_true _⟩))

theorem group_eq_nil (h : key ∉ ms.map Prod.fst) : group ms key = [] := by
  rw [group, List.map_eq_nil_iff, List.filter_eq_nil_iff]
  rintro m hm he
  exact h (List.mem_map.mpr ⟨m, hm, beq_iff_eq.mp he⟩)

theorem member_of_group (h : ∀ m ∈ ms, Member m.1 m.2) : ∀ r ∈ group ms key, Member key r := by
  intro r hr
  obtain ⟨m, hm, rfl⟩ := List.mem_map.mp hr
  obtain ⟨hm, he⟩ := List.mem_filter.mp hm
  exact beq_iff_eq.mp he ▸ h m hm

/-- Placing under a key that is present revises the one rule that stands under it. -/
theorem place_map_of_mem {keys : List RuleKey} {fresh : Rule} {revise : Rule → Rule × Bool} (f : RuleKey → Rule)
    (hmem : key ∈ keys) (hnodup : keys.Nodup) (htext : ∀ k, k.text = key.text → k = key) :
    (place key fresh revise (keys.map fun k => (some k, f k))).1 =
      keys.map fun k => (some k, if k = key then (revise (f k)).1 else f k) := by
  induction keys with
  | nil => exact absurd hmem List.not_mem_nil
  | cons k rest ih =>
    obtain ⟨hk, hnodup⟩ := List.nodup_cons.mp hnodup
    rw [List.map_cons, place, List.map_cons]
    by_cases he : k = key
    · subst he
      have hrest : ∀ k' ∈ rest, k' ≠ k := fun k' hk' h => hk (h ▸ hk')
      rw [if_pos (holds_eq_true.mpr rfl), if_pos rfl]
      exact congrArg _ (List.map_congr_left fun k' hk' => by rw [if_neg (hrest k' hk')])
    · have hmem : key ∈ rest := (List.mem_cons.mp hmem).resolve_left (Ne.symm he)
      rw [if_neg fun hh => he (htext k (holds_eq_true.mp hh)), if_neg he, ← ih hmem hnodup]

/-- Members that are deposited one after the other are grouped, if their keys are told by their texts. -/
theorem depositAll_members (h : ∀ m ∈ ms, Member m.1 m.2) (hclean : ∀ m ∈ ms, m.1.Clean) :
    (depositAll [] (ms.map fun m => (some m.1, m.2))).1 = grouped ms := by
  induction ms using List.reverseRecOn with
  | nil => rfl
  | append_singleton ms m ih =>
    obtain ⟨key, rule⟩ := m
    have hms : ∀ m ∈ ms, m ∈ ms ++ [(key, rule)] := fun m hm => List.mem_append_left _ hm
    have hlast : (key, rule) ∈ ms ++ [(key, rule)] := List.mem_append_right _ List.mem_cons_self
    have hrule : Member key rule := h _ hlast
    have htext : ∀ k : RuleKey, k.text = key.text → k = key := fun k => RuleKey.eq_of_text (hclean _ hlast)
    rw [List.map_append, depositAll_append, ih (fun m hm => h m (hms m hm)) fun m hm => hclean m (hms m hm)]
    show (deposit (grouped ms) (some key, rule)).1 = grouped (ms ++ [(key, rule)])
    rw [grouped, grouped, deposit, List.map_append, List.map_singleton, Keyed.eraseDups_concat]
    by_cases hmem : key ∈ ms.map Prod.fst
    · rw [if_pos hmem, place_map_of_mem _ (List.mem_eraseDups.mpr hmem) (Keyed.nodup_eraseDups _) htext]
      refine List.map_congr_left fun k _ => ?_
      rw [group_concat]
      by_cases hk : k = key
      · subst hk
        rw [if_pos rfl, if_pos rfl,
          revise_entry (group_ne_nil hmem) (member_of_group fun m hm => h m (hms m hm)) hrule]
      · rw [if_neg hk, if_neg (Ne.symm hk)]
    · have habsent : ∀ slot ∈ (ms.map Prod.fst).eraseDups.map fun k => (some k, entry k (group ms k)),
          holds key slot = false := by
        intro slot hs
        obtain ⟨k, hk, rfl⟩ := List.mem_map.mp hs
        refine Bool.eq_false_iff.mpr fun hh => hmem ?_
        exact htext k (holds_eq_true.mp hh) ▸ List.mem_eraseDups.mp hk
      rw [if_neg hmem, place_of_absent habsent, List.map_append, List.map_singleton, group_concat, if_pos rfl,
        group_eq_nil hmem, List.nil_append, entry_singleton hrule]
      refine congrArg (· ++ _) (List.map_congr_left fun k hk => ?_)
      have hne : key ≠ k := fun he => hmem (he ▸ List.mem_eraseDups.mp hk)
      rw [group_concat, if_neg hne]

/-! ## Folding nodes -/

theorem member_of_member? {node : FlatNode} {m : RuleKey × Rule} (h : member? node = some m) : Member m.1 m.2 := by
  cases node with
  | rule selector declarations unique =>
    simp only [member?] at h
    split at h
    · cases h
    · obtain rfl := Option.some.inj h
      cases unique with
      | false => exact .shared selector _
      | true => exact .unique selector _
  | atRule rule children =>
    simp only [member?] at h
    split at h
    · cases h
    · obtain rfl := Option.some.inj h
      exact .atRule rule _

theorem mem_members {nodes : List FlatNode} {m : RuleKey × Rule} :
    m ∈ members nodes ↔ ∃ node ∈ nodes, member? node = some m := by
  induction nodes with
  | nil => simp [members]
  | cons node rest ih =>
    rw [members, List.mem_append, ih, Option.mem_toList]
    simp only [List.mem_cons, exists_eq_or_imp]

/-- All texts of the node are without separators. -/
abbrev UnseparatedNode : FlatNode → Prop :=
  FlatNode.All (AllChars Unseparated) (Declaration.Texts Unseparated) (AllChars Unseparated)

theorem clean_slotOf? {node : FlatNode} (h : UnseparatedNode node)
    (hslot : slotOf? .byDeclarations node = some (some key, rule)) : key.Clean := by
  have hall := all_slotOf? h hslot
  cases slotOf_of_some hslot with
  | rule selector unique hne =>
    cases h with
    | rule hs hd =>
      obtain ⟨hselector, hblock⟩ := clean_unique hs hd
      cases unique with
      | false => exact hblock
      | true => exact ⟨hselector, hblock⟩
  | atRule =>
    cases hall with
    | atRule ha _ hb =>
      exact ⟨ha, allChars_cssFrom marks_unseparated (fun slot hs => (hb slot hs).allChars_css marks_unseparated) false⟩

/-- Nodes that bring their members are grouped. -/
theorem ofNodes_of_slots {nodes : List FlatNode} (h : ∀ node ∈ nodes, UnseparatedNode node)
    (hslots : nodes.filterMap (slotOf? .byDeclarations) = (members nodes).map fun m => (some m.1, m.2)) :
    ofNodes .byDeclarations nodes = grouping nodes := by
  rw [ofNodes_eq_depositAll, hslots]
  refine depositAll_members (fun m hm => ?_) fun m hm => ?_
  · obtain ⟨node, -, hnode⟩ := mem_members.mp hm
    exact member_of_member? hnode
  · have hslot : (some m.1, m.2) ∈ nodes.filterMap (slotOf? .byDeclarations) :=
      hslots ▸ List.mem_map_of_mem hm
    obtain ⟨node, hnode, hslot⟩ := List.mem_filterMap.mp hslot
    exact clean_slotOf? (h node hnode) hslot

mutual

/-- A node brings its member, the body of an at-rule grouped. -/
theorem slotOf?_eq_member? : ∀ node : FlatNode, UnseparatedNode node →
    slotOf? .byDeclarations node = (member? node).map fun m => (some m.1, m.2)
  | .rule selector declarations unique, _ => by
    simp only [slotOf?, member?]
    split
    · rfl
    · cases unique <;> rfl
  | .atRule rule children, h => by
    have hchildren : ∀ child ∈ children, UnseparatedNode child := by
      cases h with
      | atRule _ hc => exact hc
    have hbody : ofNodes .byDeclarations children = grouped (members children) :=
      ofNodes_of_slots hchildren (slots_eq_members children hchildren)
    rw [slotOf?, member?, hbody]
    split <;> rfl

theorem slots_eq_members : ∀ nodes : List FlatNode, (∀ node ∈ nodes, UnseparatedNode node) →
    nodes.filterMap (slotOf? .byDeclarations) = (members nodes).map fun m => (some m.1, m.2)
  | [], _ => rfl
  | node :: rest, h => by
    rw [List.filterMap_cons, members, List.map_append, slotOf?_eq_member? node (h node List.mem_cons_self),
      slots_eq_members rest fun n hn => h n (List.mem_cons_of_mem _ hn)]
    cases member? node <;> rfl

end

/-- Folding nodes without separators into an empty rule set groups them, at every depth. -/
theorem ofNodes_eq_grouping {nodes : List FlatNode} (h : ∀ node ∈ nodes, UnseparatedNode node) :
    ofNodes .byDeclarations nodes = grouping nodes :=
  ofNodes_of_slots h (slots_eq_members nodes h)

/-- A block that comes back after other groups, a unique rule that has it as well, and two bodies of one text. -/
def repeatedNodes : List FlatNode :=
  [.rule "b" [⟨"top", "0"⟩, ⟨"color", "red"⟩] false, .rule "a" [⟨"color", "red"⟩, ⟨"top", "0"⟩] true,
    .atRule "@media print" [.rule "b" [⟨"color", "red"⟩] false, .rule "i" [⟨"color", "red"⟩] false],
    .rule "a" [⟨"color", "red"⟩, ⟨"top", "0"⟩] false, .rule "b" [⟨"color", "red"⟩, ⟨"top", "0"⟩] false,
    .atRule "@media print" [.rule "b,i" [⟨"color", "red"⟩] false], .rule "a" [] false]

theorem ofNodes_eq_grouping_repeatedNodes :
    (∀ node ∈ repeatedNodes, UnseparatedNode node) ∧
    ofNodes .byDeclarations repeatedNodes = grouping repeatedNodes ∧
    (grouping repeatedNodes).map Prod.snd =
      [.style ["b", "a"] [⟨"color", "red"⟩, ⟨"top", "0"⟩] false, .style ["a"] [⟨"color", "red"⟩, ⟨"top", "0"⟩] true,
        .atRule "@media print" [(some (.shared "color:red"), .style ["b", "i"] [⟨"color", "red"⟩] false)]] := by
  have hrule : ∀ (s : String) (ds : List Declaration) (unique : Bool), AllChars Unseparated s →
      (∀ d ∈ ds, AllChars Unseparated d.property ∧ AllChars Unseparated d.value) →
      UnseparatedNode (.rule s ds unique) := fun _ _ _ hs hd => .rule hs hd
  have hnodes : ∀ node ∈ repeatedNodes, UnseparatedNode node := by
    simp only [repeatedNodes, List.forall_mem_cons]
    refine ⟨hrule _ _ _ (by decide) (by decide), hrule _ _ _ (by decide) (by decide), .atRule (by decide) ?_,
      hrule _ _ _ (by decide) (by decide), hrule _ _ _ (by decide) (by decide), .atRule (by decide) ?_,
      hrule _ _ _ (by decide) (by decide), fun _ h => absurd h List.not_mem_nil⟩
    · exact List.forall_mem_cons.mpr ⟨hrule _ _ _ (by decide) (by decide),
        List.forall_mem_singleton.mpr (hrule _ _ _ (by decide) (by decide))⟩
    · exact List.forall_mem_singleton.mpr (hrule _ _ _ (by decide) (by decide))
  exact ⟨hnodes, ofNodes_eq_grouping hnodes, rfl⟩

end RuleSet

end StyleEngine
