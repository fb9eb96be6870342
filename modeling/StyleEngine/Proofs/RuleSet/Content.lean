import StyleEngine.Proofs.RuleSet.Merge
import StyleEngine.Proofs.Selector.Compose
import StyleEngine.Proofs.Style.Texts

/-!
# What compiled rules are made of

Compiled rules are made of the selectors, declarations and at-rules of the flat nodes, and none of
them is empty (`all_ofNodes`). So their texts have no other characters than the nodes have, and their
keys are clean when the nodes are.
-/

namespace StyleEngine

variable {S A : String → Prop} {D : Declaration → Prop} {P : Char → Prop}

theorem Declaration.sort_ne_nil {ds : List Declaration} (h : ds ≠ []) : sort ds ≠ [] := by
  intro he
  have hperm := sort_perm ds
  rw [he] at hperm
  exact h hperm.symm.eq_nil

/-- No rule is empty; every selector satisfies `S`, every declaration `D` and every at-rule `A`. -/
inductive Rule.All (S : String → Prop) (D : Declaration → Prop) (A : String → Prop) : Rule → Prop
  | style {selectors : List String} {declarations : List Declaration} {unique : Bool}
      (hne : selectors ≠ []) (hs : ∀ s ∈ selectors, S s) (hdne : declarations ≠ [])
      (hd : ∀ d ∈ declarations, D d) : All S D A (.style selectors declarations unique)
  | atRule {rule : String} {body : List (Option RuleKey × Rule)} (ha : A rule) (hne : body ≠ [])
      (hb : ∀ slot ∈ body, All S D A slot.2) : All S D A (.atRule rule body)

namespace Rule.All

theorem isVoid {rule : Rule} (h : rule.All S D A) : rule.isVoid = false := by
  cases h with
  | style => rfl
  | atRule _ hne => simpa [Rule.isVoid] using hne

theorem share {rule : Rule} (h : rule.All S D A) {added : List String} (ha : ∀ s ∈ added, S s) :
    (Rule.share added rule).1.All S D A := by
  cases h with
  | @style selectors declarations unique hne hs hdne hd =>
    obtain ⟨extra, he, hm⟩ := Rule.addSelectors_eq_append selectors added
    simp only [Rule.share, he]
    refine .style (by simp [hne]) (fun s hmem => ?_) hdne hd
    rcases List.mem_append.mp hmem with hmem | hmem
    · exact hs s hmem
    · exact ha s (hm s hmem)
  | atRule ha' hne hb => exact .atRule ha' hne hb

theorem redeclare {rule : Rule} (h : rule.All S D A) {new : List Declaration} (hne : new ≠ [])
    (hnew : ∀ d ∈ new, D d) : (Rule.redeclare new rule).1.All S D A := by
  cases h with
  | @style selectors declarations unique hsne hs hdne hd =>
    have hperm := Declaration.sort_perm
      (declarations.filter (fun d => !(new.map Declaration.property).contains d.property) ++ new)
    refine .style hsne hs (Declaration.sort_ne_nil (by simp [hne])) fun d hmem => ?_
    · rcases List.mem_append.mp (hperm.mem_iff.mp hmem) with hmem | hmem
      · exact hd d (List.mem_filter.mp hmem).1
      · exact hnew d hmem
  | atRule ha hbne hb => exact .atRule ha hbne hb

theorem revise {rule stored : Rule} (key : RuleKey) (hr : rule.All S D A) (h : stored.All S D A) :
    (key.revise rule stored).1.All S D A := by
  cases hr with
  | style hne hs hdne hd =>
    cases key with
    | shared | unique => exact h.share hs
    | literal => exact h.redeclare hdne hd
    | owned | atRule | keyframes => exact h
  | atRule => cases key <;> exact h

end Rule.All

namespace RuleSet

variable {sharing : Sharing}

theorem all_depositAll {rules : RuleSet} {xs : List (Option RuleKey × Rule)}
    (hr : ∀ s ∈ rules, s.2.All S D A) (hx : ∀ x ∈ xs, x.2.All S D A) :
    ∀ s ∈ (depositAll rules xs).1, s.2.All S D A :=
  depositAll_induction (P := fun slot => slot.2.All S D A)
    (fun key _ _ hrule hslot => hrule.revise key hslot) hr hx

theorem all_slotOf? {node : FlatNode} (h : node.All S D A) {slot : Option RuleKey × Rule}
    (hs : slotOf? sharing node = some slot) : slot.2.All S D A := by
  induction h generalizing slot with
  | @rule selector declarations unique hsel hd =>
    cases slotOf_of_some hs with
    | rule _ _ hne =>
      exact .style (by simp) (fun s hm => List.mem_singleton.mp hm ▸ hsel) (Declaration.sort_ne_nil hne)
        fun d hm => hd d ((Declaration.sort_perm declarations).mem_iff.mp hm)
  | atRule ha _ ih =>
    cases slotOf_of_some hs with
    | atRule _ hne =>
      exact .atRule ha hne (ofNodes_induction (P := fun slot => slot.2.All S D A)
        (fun key _ _ _ hrule hslot => hrule.revise key hslot) fun child hc _ hslot => ih child hc hslot)

theorem all_ofNodes {nodes : List FlatNode} (h : ∀ node ∈ nodes, node.All S D A) :
    ∀ slot ∈ ofNodes sharing nodes, slot.2.All S D A :=
  ofNodes_induction (P := fun slot => slot.2.All S D A)
    (fun key _ _ _ hrule hslot => hrule.revise key hslot) fun node hn _ hslot => all_slotOf? (h node hn) hslot

/-- Under a solid root every selector of a style has the root in it. -/
theorem all_ofNodes_within {root : String} (hr : Selector.Solid root.toList) (style : NormalStyle) :
    ∀ slot ∈ ofNodes sharing (style.flatten root), slot.2.All (Within root) (fun _ => True) fun _ => True := by
  have hstyle : style.All (fun _ => True) (fun _ => True) :=
    NormalStyle.all_of_forall (fun _ => trivial) (fun _ => trivial) style
  have hflat := hstyle.flatten (S := Within root) (A := fun _ => True)
    (fun _ key _ hp _ => Selector.within_compose hr hp key) (fun _ _ _ => trivial) (within_refl root)
  exact all_ofNodes hflat

end RuleSet

/-! ## Selector lists -/

/-- A style rule lists no selector twice. -/
def Rule.Distinct : Rule → Prop
  | .style selectors _ _ => selectors.Nodup
  | _ => True

theorem Rule.Distinct.revise {stored : Rule} (key : RuleKey) (rule : Rule) (h : stored.Distinct) :
    (key.revise rule stored).1.Distinct := by
  have hshare : ∀ added, (Rule.share added stored).1.Distinct := by
    intro added
    cases stored with
    | style => exact Rule.nodup_addSelectors h
    | atRule | keyframes => trivial
  have hredeclare : ∀ new, (Rule.redeclare new stored).1.Distinct := by
    intro new
    cases stored <;> exact h
  cases rule with
  | atRule | keyframes => cases key <;> exact h
  | style selectors declarations unique =>
    cases key with
    | shared | unique => exact hshare selectors
    | literal => exact hredeclare declarations
    | owned | atRule | keyframes => exact h

namespace RuleSet

theorem distinct_depositAll {rules : RuleSet} {xs : List (Option RuleKey × Rule)}
    (hr : ∀ s ∈ rules, s.2.Distinct) (hx : ∀ x ∈ xs, x.2.Distinct) :
    ∀ s ∈ (depositAll rules xs).1, s.2.Distinct :=
  depositAll_induction (P := fun slot => slot.2.Distinct)
    (fun key rule _ _ hslot => hslot.revise key rule) hr hx

theorem distinct_ofNodes {sharing : Sharing} (nodes : List FlatNode) :
    ∀ slot ∈ ofNodes sharing nodes, slot.2.Distinct := by
  refine ofNodes_induction (P := fun slot => slot.2.Distinct)
    (fun key rule _ _ _ hslot => hslot.revise key rule) fun node _ slot hslot => ?_
  cases slotOf_of_some hslot with
  | atRule => trivial
  | rule selector =>
    show [selector].Nodup
    simp

end RuleSet

/-! ## Characters -/

/-- The characters that the text of a rule adds. -/
def Marks (P : Char → Prop) : Prop := P ',' ∧ P ':' ∧ P ';' ∧ P '{' ∧ P '}'

theorem allChars_singleton {c : Char} (hc : P c) {s : String} (hs : s.toList = [c]) : AllChars P s := by
  intro d hd
  rw [hs] at hd
  exact List.mem_singleton.mp hd ▸ hc

theorem Declaration.allChars_cssAll (hcolon : P ':') (hsemicolon : P ';') {ds : List Declaration}
    (h : ∀ d ∈ ds, d.Texts P) : AllChars P (cssAll ds) := by
  refine AllChars.intercalate (allChars_singleton hsemicolon rfl) fun t ht => ?_
  obtain ⟨d, hd, rfl⟩ := List.mem_map.mp ht
  exact ((h d hd).1.append (allChars_singleton hcolon rfl)).append (h d hd).2

theorem allChars_braced (hm : Marks P) {head body : String} (hh : AllChars P head)
    (hb : AllChars P body) : AllChars P (braced head body) :=
  ((hh.append (allChars_singleton hm.2.2.2.1 rfl)).append hb).append
    (allChars_singleton hm.2.2.2.2 rfl)

theorem allChars_empty : AllChars P "" := fun _ hc => absurd hc List.not_mem_nil

theorem allChars_cssFrom (hm : Marks P) {body : List (Option RuleKey × Rule)}
    (h : ∀ slot ∈ body, AllChars P slot.2.css) (afterBare : Bool) :
    AllChars P (cssFrom afterBare body) := by
  induction body generalizing afterBare with
  | nil => rw [cssFrom]; exact allChars_empty
  | cons slot rest ih =>
    obtain ⟨key?, rule⟩ := slot
    have hrest := ih fun s hs => h s (List.mem_cons_of_mem _ hs)
    have hrule : AllChars P rule.css := h (key?, rule) List.mem_cons_self
    rw [cssFrom]
    split
    · exact hrest afterBare
    · refine (AllChars.append ?_ hrule).append (hrest rule.isBare)
      split
      · exact allChars_singleton hm.2.2.1 rfl
      · exact allChars_empty

theorem Rule.All.allChars_css (hm : Marks P) {rule : Rule}
    (h : rule.All (AllChars P) (Declaration.Texts P) (AllChars P)) : AllChars P rule.css := by
  induction h with
  | style _ hs _ hd =>
    unfold Rule.css
    split
    · exact allChars_empty
    split
    · exact Declaration.allChars_cssAll hm.2.1 hm.2.2.1 hd
    · exact allChars_braced hm (Selector.allChars_joinList hm.1 hs) (Declaration.allChars_cssAll hm.2.1 hm.2.2.1 hd)
  | atRule ha _ _ ih =>
    simp only [Rule.css]
    split
    · exact allChars_empty
    · exact allChars_braced hm ha (allChars_cssFrom hm ih false)

theorem marks_unseparated : Marks Unseparated := by
  unfold Marks Unseparated
  decide

/-- A rule without separators has a clean key. -/
theorem Rule.All.clean_key {rule : Rule}
    (h : rule.All (AllChars Unseparated) (Declaration.Texts Unseparated) (AllChars Unseparated))
    (root : String) : (rule.key (RuleKey.ofStyle root)).Clean := by
  cases h with
  | style _ hs _ hd =>
    have hblock := Declaration.allChars_cssAll marks_unseparated.2.1 marks_unseparated.2.2.1 hd
    simp only [Rule.key, RuleKey.ofStyle]
    split
    · exact hblock
    · exact ⟨Selector.allChars_joinList marks_unseparated.1 hs, hblock⟩
  | atRule ha _ hb =>
    exact ⟨ha, allChars_cssFrom marks_unseparated
      (fun slot hs => (hb slot hs).allChars_css marks_unseparated) false⟩

/-- Rules that are not bare show their selectors and their block. -/
theorem Rule.css_style {selectors : List String} {declarations : List Declaration} {unique : Bool}
    (hd : declarations ≠ []) (hs : ∃ s ∈ selectors, s ≠ "") :
    (Rule.style selectors declarations unique).css =
      braced (Selector.joinList selectors) (Declaration.cssAll declarations) := by
  have hbare : ¬ selectors.all String.isEmpty = true := by
    intro hall
    obtain ⟨s, hm, hne⟩ := hs
    exact hne (String.isEmpty_iff.mp (List.all_eq_true.mp hall s hm))
  rw [Rule.css, if_neg (by simpa using hd), if_neg hbare]

end StyleEngine
