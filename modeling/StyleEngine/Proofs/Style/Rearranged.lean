import StyleEngine.Proofs.Style.Spelling

/-!
# Declarations in another order

A rule sorts its declarations, and only those of one property of CSS keep the order in which they were written. So a
style may be sorted before it is flattened: that changes neither its rules nor the text to hash (`ofNodes_sorted`).
Descriptions that differ in falsy values and in the order of different properties, at any depth, have the same sorted
style (`Description.normalizeAt_of_rearranged`).
-/

namespace StyleEngine

namespace Declaration

variable {ds es : List Declaration}

/-- Only the order inside a group matters. -/
theorem sort_congr (h : ∀ p, group p ds = group p es) : sort ds = sort es :=
  eq_of_groups (sorted_sort ds) (sorted_sort es) fun p => by rw [group_sort, group_sort, h p]

theorem sort_sort (ds : List Declaration) : sort (sort ds) = sort ds := sort_congr fun p => group_sort p ds

theorem isEmpty_sort (ds : List Declaration) : (sort ds).isEmpty = ds.isEmpty := by
  rw [Bool.eq_iff_iff, List.isEmpty_iff_length_eq_zero, List.isEmpty_iff_length_eq_zero, (sort_perm ds).length_eq]

end Declaration

/-! ## Sorted styles -/

namespace FlatNode

mutual

/-- The node with its declarations sorted, at any depth. -/
def sorted : FlatNode → FlatNode
  | .rule selector declarations unique => .rule selector (Declaration.sort declarations) unique
  | .atRule name children => .atRule name (sortedAll children)

def sortedAll : List FlatNode → List FlatNode
  | [] => []
  | node :: rest => node.sorted :: sortedAll rest

end

theorem sortedAll_append (first second : List FlatNode) :
    sortedAll (first ++ second) = sortedAll first ++ sortedAll second := by
  induction first with
  | nil => rfl
  | cons node rest ih => exact congrArg (node.sorted :: ·) ih

end FlatNode

namespace NormalStyle

mutual

/-- The style with its declarations sorted, at any depth. -/
def sorted : NormalStyle → NormalStyle
  | ⟨declarations, nested, unique, debugName?⟩ =>
    ⟨Declaration.sort declarations, sortedAll nested, unique, debugName?⟩

def sortedAll : List (String × NormalStyle) → List (String × NormalStyle)
  | [] => []
  | (key, child) :: rest => (key, child.sorted) :: sortedAll rest

end

theorem debugName?_sorted (style : NormalStyle) : style.sorted.debugName? = style.debugName? := by
  cases style
  rfl

theorem unique_sorted (style : NormalStyle) : style.sorted.unique = style.unique := by
  cases style
  rfl

mutual

/-- A style can be sorted before or after it is flattened. -/
theorem flatten_sorted (root : String) :
    ∀ style : NormalStyle, style.sorted.flatten root = FlatNode.sortedAll (style.flatten root)
  | ⟨declarations, nested, unique, _⟩ => by
    rw [sorted, flatten, flatten, flattenNested_sorted root nested, FlatNode.sortedAll, FlatNode.sorted]

theorem flattenNested_sorted (root : String) :
    ∀ nested : List (String × NormalStyle),
      flattenNested root (sortedAll nested) = FlatNode.sortedAll (flattenNested root nested)
  | [] => rfl
  | (key, child) :: rest => by
    rw [sortedAll, flattenNested, flattenNested, FlatNode.sortedAll_append, flattenNested_sorted root rest,
      flatten_sorted root child, flatten_sorted _ child]
    split <;> rfl

end

end NormalStyle

namespace RuleSet

mutual

/-- A node brings its declarations sorted, however it has them. -/
theorem insertNode_sorted (sharing : Sharing) (rules : RuleSet) :
    ∀ node : FlatNode, insertNode sharing rules node.sorted = insertNode sharing rules node
  | .rule selector declarations unique => by
    rw [FlatNode.sorted, insertNode, insertNode, insertRule, insertRule, Declaration.isEmpty_sort,
      Declaration.sort_sort]
  | .atRule rule children => by
    rw [FlatNode.sorted, insertNode, insertNode, insertNodes_sorted sharing [] children]

theorem insertNodes_sorted (sharing : Sharing) (rules : RuleSet) :
    ∀ nodes : List FlatNode, insertNodes sharing rules (FlatNode.sortedAll nodes) = insertNodes sharing rules nodes
  | [] => rfl
  | node :: rest => by
    rw [FlatNode.sortedAll, insertNodes, insertNodes, insertNode_sorted sharing rules node,
      insertNodes_sorted sharing _ rest]

end

theorem ofNodes_sorted (sharing : Sharing) (nodes : List FlatNode) :
    ofNodes sharing (FlatNode.sortedAll nodes) = ofNodes sharing nodes :=
  insertNodes_sorted sharing [] nodes

end RuleSet

namespace Registry

theorem className_sorted (style : NormalStyle) : className style.sorted = className style := by
  rw [className, className, hashText, hashText, style.debugName?_sorted, style.unique_sorted, style.flatten_sorted,
    RuleSet.ofNodes_sorted]

theorem compile_sorted (style : NormalStyle) (name : String) : compile style.sorted name = compile style name := by
  rw [compile, compile, style.flatten_sorted, RuleSet.ofNodes_sorted]

end Registry

/-! ## Rearranged descriptions -/

namespace Description

/-- The same written declarations, where those of one property of CSS stand in the same order. -/
structure Reordered (ds es : List (String × Value)) : Prop where
  perm : (written ds).Perm (written es)
  stable : ∀ p, spelled p ds = spelled p es

mutual

/-- At every level the same keys in the same order, reordered declarations, and directives with the same effect. -/
inductive Rearranged : Description → Description → Prop
  | mk {d e : Description} (declarations : Reordered d.declarations e.declarations)
      (nested : RearrangedAll d.nested e.nested) (unique : d.isUnique = e.isUnique)
      (debugName : d.shownName? = e.shownName?) (priority : d.priority = e.priority) : Rearranged d e

inductive RearrangedAll : List (String × Description) → List (String × Description) → Prop
  | nil : RearrangedAll [] []
  | cons {d e : Description} {ns ms : List (String × Description)} (key : String) (child : Rearranged d e)
      (rest : RearrangedAll ns ms) : RearrangedAll ((key, d) :: ns) ((key, e) :: ms)

end

variable {d e : Description} {as bs : List (String × Value)}

theorem Reordered.symm (h : Reordered as bs) : Reordered bs as :=
  ⟨h.perm.symm, fun p => (h.stable p).symm⟩

/-- A declaration can be written before those of other properties. -/
theorem Reordered.move (a : String × Value) (front back : List (String × Value))
    (h : ∀ e ∈ front, Property.hyphenate e.1 ≠ Property.hyphenate a.1) :
    Reordered (front ++ a :: back) (a :: (front ++ back)) where
  perm := List.perm_middle.filter _
  stable p := by
    rw [spelled_append, spelled_cons, spelled_cons a, spelled_append]
    by_cases ha : Property.hyphenate a.1 = p
    · have hfront : spelled p front = [] := by
        refine List.filter_eq_nil_iff.mpr fun e he => ?_
        simpa [← ha] using h e (mem_written.mp he).1
      rw [hfront, List.nil_append, List.nil_append]
    · rw [if_neg fun hand => ha hand.2, List.nil_append, List.nil_append]

/-- Reordered declarations are refused together, or the same ones are declared. -/
theorem Reordered.render (h : Reordered as bs) :
    (renderDeclarations as).toOption.map Declaration.sort = (renderDeclarations bs).toOption.map Declaration.sort := by
  have hfrom : ∀ {as bs : List (String × Value)}, Reordered as bs → ∀ ds, renderDeclarations as = .ok ds →
      ∃ es, renderDeclarations bs = .ok es ∧ Declaration.sort ds = Declaration.sort es := by
    intro as bs h ds hds
    obtain ⟨es, hes⟩ := exists_renderDeclarations_iff.mpr fun e he =>
      exists_renderDeclarations_iff.mp ⟨ds, hds⟩ e (h.perm.mem_iff.mpr he)
    refine ⟨es, hes, Declaration.sort_congr fun p => Except.ok.inj (ε := StyleError) ?_⟩
    rw [← renderDeclarations_spelled p hds, ← renderDeclarations_spelled p hes, h.stable p]
  cases hds : renderDeclarations as with
  | ok ds =>
    obtain ⟨es, hes, hsort⟩ := hfrom h ds hds
    rw [hes]
    exact congrArg some hsort
  | error err =>
    cases hes : renderDeclarations bs with
    | error err' => rfl
    | ok es =>
      obtain ⟨ds, hok, -⟩ := hfrom h.symm es hes
      rw [hds] at hok
      cases hok

theorem sorted_raisePriority (priority : Nat) (style : NormalStyle) :
    (raisePriority priority style).sorted = raisePriority priority style.sorted := by
  obtain ⟨declarations, nested, unique, debugName?⟩ := style
  unfold raisePriority
  split <;> rfl

/-- The sorted style of a description, from the sorted parts. -/
theorem sorted_normalizeAt {debug : Bool} {depth : Nat} (hdepth : ¬ maxNesting < depth) (d : Description) :
    (normalizeAt debug depth d).toOption.map NormalStyle.sorted =
      ((renderDeclarations d.declarations).toOption.map Declaration.sort).bind fun declarations =>
        ((normalizeAll debug (depth + 1) d.nested).toOption.map NormalStyle.sortedAll).map fun nested =>
          raisePriority d.priority
            { declarations, nested, unique := d.isUnique
              debugName? := if debug then d.shownName? else none } := by
  rw [toOption_normalizeAt hdepth]
  cases (renderDeclarations d.declarations).toOption with
  | none => rfl
  | some declarations =>
    cases (normalizeAll debug (depth + 1) d.nested).toOption with
    | none => rfl
    | some nested => exact congrArg some (sorted_raisePriority _ _)

theorem sortedAll_normalizeAll_cons (debug : Bool) (depth : Nat) (key : String) (d : Description)
    (rest : List (String × Description)) :
    (normalizeAll debug depth ((key, d) :: rest)).toOption.map NormalStyle.sortedAll =
      ((normalizeAt debug depth d).toOption.map NormalStyle.sorted).bind fun style =>
        ((normalizeAll debug depth rest).toOption.map NormalStyle.sortedAll).map ((key, style) :: ·) := by
  rw [toOption_normalizeAll_cons]
  cases (normalizeAt debug depth d).toOption with
  | none => rfl
  | some style => cases (normalizeAll debug depth rest).toOption <;> rfl

mutual

/-- Rearranged descriptions have one sorted style, or none. -/
theorem normalizeAt_of_rearranged (debug : Bool) (depth : Nat) : ∀ {d e : Description}, Rearranged d e →
    (normalizeAt debug depth d).toOption.map NormalStyle.sorted =
      (normalizeAt debug depth e).toOption.map NormalStyle.sorted
  | d, e, .mk hdeclarations hnested hunique hname hpriority => by
    by_cases hdepth : maxNesting < depth
    · obtain ⟨_, _, _, _, _⟩ := d
      obtain ⟨_, _, _, _, _⟩ := e
      rw [normalizeAt, normalizeAt, if_pos hdepth, if_pos hdepth]
    · rw [sorted_normalizeAt hdepth, sorted_normalizeAt hdepth, hdeclarations.render,
        normalizeAll_of_rearranged debug (depth + 1) hnested, hunique, hname, hpriority]

theorem normalizeAll_of_rearranged (debug : Bool) (depth : Nat) : ∀ {ns ms : List (String × Description)},
    RearrangedAll ns ms →
    (normalizeAll debug depth ns).toOption.map NormalStyle.sortedAll =
      (normalizeAll debug depth ms).toOption.map NormalStyle.sortedAll
  | _, _, .nil => rfl
  | _, _, .cons key hchild hrest => by
    rw [sortedAll_normalizeAll_cons, sortedAll_normalizeAll_cons, normalizeAt_of_rearranged debug depth hchild,
      normalizeAll_of_rearranged debug depth hrest]

end

end Description

namespace Registry

/-- Rearranged descriptions are registered alike, in every registry and with either debug flag: either both
registrations fail, or both return the same class and leave the same rules and version. -/
theorem registerStyle_of_rearranged {d e : Description} (h : d.Rearranged e) (r : Registry) (debug : Bool) :
    (r.registerStyle d debug).toOption = (r.registerStyle e debug).toOption := by
  have hsorted : ∀ c : Description, (r.registerStyle c debug).toOption =
      ((c.normalize debug).toOption.map NormalStyle.sorted).map fun style =>
        (className style, r.update (r.rules.mergeStyle (compile style (className style))
          (Selector.ofClass (className style)))) := by
    intro c
    rw [registerStyle_eq, toOption_map, Option.map_map]
    refine congrArg (Option.map · _) (funext fun style => ?_)
    simp only [Function.comp, className_sorted, compile_sorted]
  rw [hsorted, hsorted, Description.normalize, Description.normalize, Description.normalizeAt_of_rearranged debug 0 h]

/-- Two spellings of one property, which keep their order, between values that are falsy or of other properties. -/
def mixedStyle : Description :=
  { declarations := [("color", .text "red"), ("backgroundColor", .text "blue"), ("margin", .text ""),
      ("background-color", .text "green")]
    nested := [("&:hover", { declarations := [("top", .text "1px"), ("left", .text "2px")] })]
    unique? := some false }

def remixedStyle : Description :=
  { declarations := [("backgroundColor", .text "blue"), ("background-color", .text "green"), ("color", .text "red")]
    nested := [("&:hover", { declarations := [("left", .text "2px"), ("top", .text "1px")], debugName? := some "" })]
    priority? := some 0 }

theorem registerStyle_of_rearranged_mixedStyle :
    mixedStyle.Rearranged remixedStyle ∧ (registerStyle {} mixedStyle true).toOption.isSome = true ∧
      (registerStyle {} mixedStyle true).toOption = (registerStyle {} remixedStyle true).toOption := by
  have hown := (Description.Reordered.move ("color", .text "red")
    [("backgroundColor", .text "blue"), ("background-color", .text "green")] [] (by decide)).symm
  have hchild := Description.Reordered.move ("left", .text "2px") [("top", .text "1px")] [] (by decide)
  have hrearranged : mixedStyle.Rearranged remixedStyle :=
    .mk ⟨hown.perm, hown.stable⟩ (.cons "&:hover" (.mk hchild .nil rfl rfl rfl) .nil) rfl rfl rfl
  exact ⟨hrearranged, rfl, registerStyle_of_rearranged hrearranged {} true⟩

end Registry

end StyleEngine
