import StyleEngine.Description.OfData
import StyleEngine.Proofs.Keyed.Storing
import StyleEngine.Proofs.Style.Texts

/-!
# Distinct keys

A description is read at a path of selectors (`nestedAt?`). Wherever it is read, it has each property and each
selector once: the operations that build a description keep that, and what is read from data has it
(`distinct_ofData`).
-/

namespace StyleEngine.Description

variable {d e : Description} {p s : String}

/-- The description below a path of selectors. -/
def nestedAt? (d : Description) : List String → Option Description
  | [] => some d
  | s :: path => (d.getNested? s).bind fun child => child.nestedAt? path

/-- Properties and selectors are distinct. -/
structure DistinctKeys (d : Description) : Prop where
  properties : (Keyed.keys d.declarations).Nodup
  selectors : (Keyed.keys d.nested).Nodup

/-- Properties and selectors are distinct, here and below. -/
def Distinct (d : Description) : Prop := ∀ path e, d.nestedAt? path = some e → e.DistinctKeys

theorem Distinct.child (h : d.Distinct) {child : Description} (hs : d.getNested? s = some child) :
    child.Distinct := by
  intro path e he
  refine h (s :: path) e ?_
  rw [nestedAt?, hs]
  exact he

theorem distinct_iff :
    d.Distinct ↔ d.DistinctKeys ∧ ∀ s child, d.getNested? s = some child → child.Distinct := by
  constructor
  · exact fun h => ⟨h [] d rfl, fun s child hs => h.child hs⟩
  · rintro ⟨hkeys, hchildren⟩ path e he
    cases path with
    | nil => exact Option.some.inj he ▸ hkeys
    | cons s path =>
      obtain ⟨child, hs, he⟩ := Option.bind_eq_some_iff.mp he
      exact hchildren s child hs path e he

/-! ## Building -/

theorem distinct_empty : Distinct {} :=
  distinct_iff.mpr ⟨⟨List.nodup_nil, List.nodup_nil⟩, nofun⟩

theorem Distinct.set (h : d.Distinct) (property : String) (value : Value) : (d.set property value).Distinct := by
  obtain ⟨hkeys, hchildren⟩ := distinct_iff.mp h
  exact distinct_iff.mpr ⟨⟨Keyed.nodup_keys_put hkeys.properties, hkeys.selectors⟩, hchildren⟩

theorem Distinct.nest (h : d.Distinct) (selector : String) {child : Description} (hchild : child.Distinct) :
    (d.nest selector child).Distinct := by
  obtain ⟨hkeys, hchildren⟩ := distinct_iff.mp h
  refine distinct_iff.mpr ⟨⟨hkeys.properties, Keyed.nodup_keys_put hkeys.selectors⟩, fun s other hs => ?_⟩
  rw [getNested?, Description.nest] at hs
  by_cases he : s = selector
  · rw [he, Keyed.lookup_put_self] at hs
    exact Option.some.inj hs ▸ hchild
  · rw [Keyed.lookup_put_ne he] at hs
    exact hchildren s other hs

/-- Directives have no keys. -/
theorem Distinct.withDirectives (h : d.Distinct) (unique? : Option Bool) (debugName? : Option String)
    (priority? : Option Nat) : Distinct ⟨d.declarations, d.nested, unique?, debugName?, priority?⟩ := by
  obtain ⟨hkeys, hchildren⟩ := distinct_iff.mp h
  exact distinct_iff.mpr ⟨⟨hkeys.properties, hkeys.selectors⟩, hchildren⟩

/-! ## Reading -/

theorem distinct_addLeaf {key : String} {value : Data} (h : d.Distinct) (he : d.addLeaf key value = .ok e) :
    e.Distinct := by
  have hset : (Value.ofData key value).map (d.set key) = .ok e → e.Distinct := by
    intro hvalue
    obtain ⟨v, -, rfl⟩ := ok_of_map_ok hvalue
    exact h.set key v
  unfold addLeaf at he
  split at he
  · split at he <;> cases he
    exact h
  · cases he
    exact h
  · cases he
    exact h.withDirectives _ _ _
  · cases he
    exact h
  · cases he
    exact h.withDirectives _ _ _
  · cases he
    exact h
  · split at he <;> cases he
    exact h.withDirectives _ _ _
  · exact hset he
  · exact hset he
  · cases he

mutual

/-- What is read from data has distinct keys, even if the data has not. -/
theorem distinct_ofData (v : Data) (e : Description) (he : ofData v = .ok e) : e.Distinct := by
  cases v with
  | map members => exact distinct_addMembers members distinct_empty he
  | null | boolean _ | number _ | text _ | list _ => cases he

theorem distinct_addMembers (members : List (String × Data)) {d e : Description} (h : d.Distinct)
    (he : d.addMembers members = .ok e) : e.Distinct := by
  cases members with
  | nil =>
    cases he
    exact h
  | cons member rest =>
    cases member with
    | mk key value =>
      rw [addMembers] at he
      cases hd : d.addMember key value with
      | error _ => rw [hd] at he; cases he
      | ok d' =>
        rw [hd] at he
        exact distinct_addMembers rest (distinct_addMember key value h hd) he

theorem distinct_addMember (key : String) (value : Data) {d e : Description} (h : d.Distinct)
    (he : d.addMember key value = .ok e) : e.Distinct := by
  cases value with
  | null | boolean _ | number _ | text _ | list _ => exact distinct_addLeaf h he
  | map members =>
    rw [addMember] at he
    split at he
    · exact distinct_addNested members h he
    · obtain ⟨child, hchild, rfl⟩ := ok_of_map_ok he
      exact h.nest key (distinct_addMembers members distinct_empty hchild)
    · cases he

theorem distinct_addNested (members : List (String × Data)) {d e : Description} (h : d.Distinct)
    (he : d.addNested members = .ok e) : e.Distinct := by
  cases members with
  | nil =>
    cases he
    exact h
  | cons member rest =>
    cases member with
    | mk selector child =>
      rw [addNested] at he
      split at he
      · exact distinct_addNested rest h he
      · cases hc : ofData child with
        | error _ => rw [hc] at he; cases he
        | ok c =>
          rw [hc] at he
          exact distinct_addNested rest (h.nest selector (distinct_ofData child c hc)) he

end

end StyleEngine.Description
