import StyleEngine.Proofs.Selector.Compose
import StyleEngine.Proofs.Style.Texts

/-!
# Renamed nodes

A style that is flattened under its class is the style flattened under `&` with the class in place of
every `&`, in the selectors of every depth (`flatten_substitute`).
-/

namespace StyleEngine

namespace FlatNode

mutual

/-- The node with every selector rewritten by `σ`. -/
def rename (σ : String → String) : FlatNode → FlatNode
  | .rule selector declarations unique => .rule (σ selector) declarations unique
  | .atRule name children => .atRule name (renameAll σ children)

def renameAll (σ : String → String) : List FlatNode → List FlatNode
  | [] => []
  | node :: rest => node.rename σ :: renameAll σ rest

end

theorem renameAll_eq_map (σ : String → String) (nodes : List FlatNode) :
    renameAll σ nodes = nodes.map (rename σ) := by
  induction nodes with
  | nil => rfl
  | cons node rest ih => rw [renameAll, ih, List.map_cons]

theorem renameAll_append (σ : String → String) (first second : List FlatNode) :
    renameAll σ (first ++ second) = renameAll σ first ++ renameAll σ second := by
  simp only [renameAll_eq_map, List.map_append]

theorem All.rename {S S' A : String → Prop} {D : Declaration → Prop} {σ : String → String}
    (hσ : ∀ s, S s → S' (σ s)) {node : FlatNode} (h : node.All S D A) : (node.rename σ).All S' D A := by
  induction h with
  | rule hs hd => rw [FlatNode.rename]; exact .rule (hσ _ hs) hd
  | @atRule rule children ha _ ih =>
    rw [FlatNode.rename, renameAll_eq_map]
    refine .atRule ha fun child hc => ?_
    obtain ⟨node, hn, rfl⟩ := List.mem_map.mp hc
    exact ih node hn

/-- Nothing in the node is marked unique. -/
inductive Unmarked : FlatNode → Prop
  | rule (selector : String) (declarations : List Declaration) : Unmarked (.rule selector declarations false)
  | atRule {rule : String} {children : List FlatNode} (h : ∀ child ∈ children, Unmarked child) :
      Unmarked (.atRule rule children)

theorem Unmarked.rename (σ : String → String) {node : FlatNode} (h : node.Unmarked) :
    (node.rename σ).Unmarked := by
  induction h with
  | rule selector declarations => rw [FlatNode.rename]; exact .rule _ _
  | @atRule rule children _ ih =>
    rw [FlatNode.rename, renameAll_eq_map]
    refine .atRule fun child hc => ?_
    obtain ⟨node, hn, rfl⟩ := List.mem_map.mp hc
    exact ih node hn

end FlatNode

namespace NormalStyle

mutual

/-- Flattening under a solid root is flattening under `&` with the root put in afterwards. -/
theorem flatten_substitute {root : String} (hr : Selector.Solid root.toList) (parent : String) :
    ∀ style : NormalStyle, style.flatten (Selector.substitute root parent) =
      FlatNode.renameAll (Selector.substitute root) (style.flatten parent)
  | ⟨declarations, nested, unique, _⟩ => by
    rw [flatten, flatten, FlatNode.renameAll, FlatNode.rename, flattenNested_substitute hr parent nested]

theorem flattenNested_substitute {root : String} (hr : Selector.Solid root.toList) (parent : String) :
    ∀ nested : List (String × NormalStyle), flattenNested (Selector.substitute root parent) nested =
      FlatNode.renameAll (Selector.substitute root) (flattenNested parent nested)
  | [] => rfl
  | (key, child) :: rest => by
    rw [flattenNested, flattenNested, FlatNode.renameAll_append, flattenNested_substitute hr parent rest]
    congr 1
    split
    · rw [FlatNode.renameAll, FlatNode.rename, FlatNode.renameAll, flatten_substitute hr parent child]
    · rw [Selector.compose_substitute hr, flatten_substitute hr _ child]

end

/-- Nothing in the style is marked unique. -/
inductive Unmarked : NormalStyle → Prop
  | mk {declarations : List Declaration} {nested : List (String × NormalStyle)}
      {debugName? : Option String} (children : ∀ e ∈ nested, Unmarked e.2) :
      Unmarked ⟨declarations, nested, false, debugName?⟩

theorem Unmarked.flatten {style : NormalStyle} (h : style.Unmarked) (root : String) :
    ∀ node ∈ style.flatten root, node.Unmarked := by
  induction h generalizing root with
  | @mk declarations nested debugName? _ ih =>
    intro node hn
    unfold NormalStyle.flatten at hn
    rcases List.mem_cons.mp hn with rfl | hn
    · exact .rule _ _
    · obtain ⟨e, he, ⟨-, rfl⟩ | ⟨-, hn⟩⟩ := mem_flattenNested.mp hn
      · exact .atRule (ih e he root)
      · exact ih e he _ node hn

end NormalStyle

end StyleEngine
