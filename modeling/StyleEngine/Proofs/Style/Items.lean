import StyleEngine.Proofs.Style.Overlay

/-!
# Descriptions item by item

A description can be told by the items that are added to it one after the other. Reading data adds the items of its
members in their order (`ofData_eq_addAll`), and putting a description on top of another one adds what it brings, a
child under a selector that is there as the merged one (`merge_eq_addAll`). So every entry is stored by the same two
operations, and of all entries under a key the last is read (`get?_addAll`, `getNested?_addAll`).
-/

namespace StyleEngine.Description

variable {d e : Description}

/-- What is added to a description in one go. -/
inductive Item where
  | declaration (property : String) (value : Value)
  | child (selector : String) (style : Description)
  | unique (flag : Bool)
  | debugName (name : String)
  | priority (level : Nat)

namespace Item

def addTo (d : Description) : Item → Description
  | .declaration property value => d.set property value
  | .child selector style => d.nest selector style
  | .unique flag => d.withUnique flag
  | .debugName name => d.withDebugName name
  | .priority level => d.withPriority level

def declaration? : Item → Option (String × Value)
  | .declaration property value => some (property, value)
  | _ => none

def child? : Item → Option (String × Description)
  | .child selector style => some (selector, style)
  | _ => none

end Item

/-- Adds the items one after the other. -/
def addAll (d : Description) (items : List Item) : Description := items.foldl Item.addTo d

theorem addAll_append (d : Description) (first second : List Item) :
    d.addAll (first ++ second) = (d.addAll first).addAll second :=
  List.foldl_append

theorem declarations_addAll (d : Description) (items : List Item) :
    (d.addAll items).declarations = Keyed.putAll d.declarations (items.filterMap Item.declaration?) := by
  induction items generalizing d with
  | nil => rfl
  | cons item rest ih => cases item <;> exact ih _

theorem nested_addAll (d : Description) (items : List Item) :
    (d.addAll items).nested = Keyed.putAll d.nested (items.filterMap Item.child?) := by
  induction items generalizing d with
  | nil => rfl
  | cons item rest ih => cases item <;> exact ih _

/-- Of all declarations of a property the last is read. -/
theorem get?_addAll (d : Description) (items : List Item) (property : String) :
    (d.addAll items).get? property =
      (Keyed.latest? property (items.filterMap Item.declaration?)).or (d.get? property) := by
  rw [get?, declarations_addAll, Keyed.lookup_putAll_last]
  rfl

/-- Of all children under a selector the last is read. -/
theorem getNested?_addAll (d : Description) (items : List Item) (selector : String) :
    (d.addAll items).getNested? selector =
      (Keyed.latest? selector (items.filterMap Item.child?)).or (d.getNested? selector) := by
  rw [getNested?, nested_addAll, Keyed.lookup_putAll_last]
  rfl

theorem addAll_declarations (d : Description) (added : List (String × Value)) :
    d.addAll (added.map fun e => .declaration e.1 e.2) =
      { d with declarations := Keyed.putAll d.declarations added } := by
  induction added generalizing d with
  | nil =>
    cases d
    rfl
  | cons first rest ih => exact ih (d.set first.1 first.2)

theorem addAll_children (d : Description) (added : List (String × Description)) :
    d.addAll (added.map fun e => .child e.1 e.2) = { d with nested := Keyed.putAll d.nested added } := by
  induction added generalizing d with
  | nil =>
    cases d
    rfl
  | cons first rest ih => exact ih (d.nest first.1 first.2)

/-! ## Reading -/

/-- What the member of a map stands for. A member that is left out or does not fit stands for nothing. -/
def memberItems (key : String) (value : Data) : List Item :=
  match MemberRole.ofKey key, value with
  | .nest, .map members => members.filterMap fun e => (ofData e.2).toOption.map (.child e.1)
  | .unique, .boolean b => [.unique b]
  | .debugName, .text s => [.debugName s]
  | .priority, .number n => (n.priority?.map .priority).toList
  | .selector, .map members => ((ofData (.map members)).toOption.map (.child key)).toList
  | .selector, v => ((Value.ofData key v).toOption.map (.declaration key)).toList
  | .property, v => ((Value.ofData key v).toOption.map (.declaration key)).toList
  | _, _ => []

theorem addNested_eq_addAll {members : List (String × Data)} (h : d.addNested members = .ok e) :
    e = d.addAll (members.filterMap fun m => (ofData m.2).toOption.map (.child m.1)) := by
  induction members generalizing d with
  | nil =>
    cases h
    rfl
  | cons member rest ih =>
    obtain ⟨selector, value⟩ := member
    rw [addNested] at h
    rw [List.filterMap_cons]
    split at h
    · next hskipped =>
      -- what is left out does not spell a description, so it stands for no item
      have hnone : (ofData value).toOption = none := by
        cases value with
        | map members => cases hskipped
        | _ => rfl
      rw [hnone]
      exact ih h
    · cases hc : ofData value with
      | error cause => rw [hc] at h; cases h
      | ok c =>
        rw [hc] at h
        exact ih h

theorem addLeaf_eq_addAll {key : String} {value : Data} (hleaf : ∀ members, value ≠ .map members)
    (h : d.addLeaf key value = .ok e) : e = d.addAll (memberItems key value) := by
  have hset : (Value.ofData key value).map (d.set key) = .ok e →
      e = d.addAll ((Value.ofData key value).toOption.map (.declaration key)).toList := by
    intro hvalue
    obtain ⟨v, hv, rfl⟩ := ok_of_map_ok hvalue
    rw [hv]
    rfl
  unfold addLeaf at h
  unfold memberItems
  generalize MemberRole.ofKey key = role at h ⊢
  cases role with
  | nest =>
    cases value with
    | map members => exact absurd rfl (hleaf members)
    | boolean b => cases b <;> cases h; rfl
    | null => cases h; rfl
    | _ => cases h
  | unique | debugName => cases value <;> cases h <;> rfl
  | priority =>
    cases value with
    | number n =>
      cases hn : n.priority? with
      | none => simp only [hn] at h; cases h
      | some level =>
        simp only [hn] at h ⊢
        cases h
        rfl
    | _ => cases h <;> rfl
  | selector | property =>
    cases value with
    | map members => exact absurd rfl (hleaf members)
    | _ => exact hset h

theorem addMember_eq_addAll {key : String} {value : Data} (h : d.addMember key value = .ok e) :
    e = d.addAll (memberItems key value) := by
  cases value with
  | null | boolean _ | number _ | text _ | list _ => exact addLeaf_eq_addAll nofun h
  | map members =>
    rw [addMember] at h
    unfold memberItems
    split at h
    · next hrole =>
      rw [hrole]
      exact addNested_eq_addAll h
    · next hrole =>
      obtain ⟨child, hchild, rfl⟩ := ok_of_map_ok h
      have hdata : ofData (.map members) = .ok child := hchild
      rw [hrole]
      simp only [hdata]
      rfl
    · cases h

theorem addMembers_eq_addAll {members : List (String × Data)} (h : d.addMembers members = .ok e) :
    e = d.addAll (members.flatMap fun m => memberItems m.1 m.2) := by
  induction members generalizing d with
  | nil =>
    cases h
    rfl
  | cons member rest ih =>
    obtain ⟨key, value⟩ := member
    rw [addMembers] at h
    cases hd : d.addMember key value with
    | error cause => rw [hd] at h; cases h
    | ok d' =>
      rw [hd] at h
      rw [List.flatMap_cons, addAll_append, ← addMember_eq_addAll hd]
      exact ih h

theorem ofData_eq_addAll {data : Data} (h : ofData data = .ok d) :
    ∃ members, data = .map members ∧ d = addAll {} (members.flatMap fun m => memberItems m.1 m.2) := by
  cases data with
  | map members => exact ⟨members, rfl, addMembers_eq_addAll h⟩
  | null | boolean _ | number _ | text _ | list _ => cases h

/-! ## Extending -/

/-- What a description brings when it is put on top of another one. Falsy values stay behind, and a child comes merged
with the one that is there. -/
def mergeItems (base d : Description) : List Item :=
  (d.declarations.filter fun e => !e.2.isFalsy).map (fun e => .declaration e.1 e.2) ++
    (d.nested.map fun e => (e.1, mergeOnto (base.getNested? e.1) e.2)).map (fun e => .child e.1 e.2) ++
    (((d.unique?.filter id).map .unique).toList ++ ((d.debugName?.filter (!·.isEmpty)).map .debugName).toList ++
      ((d.priority?.filter (0 < ·)).map .priority).toList)

theorem addAll_directives (d : Description) (unique? : Option Bool) (debugName? : Option String)
    (priority? : Option Nat) :
    d.addAll ((unique?.map .unique).toList ++ (debugName?.map .debugName).toList ++
      (priority?.map .priority).toList) =
      ⟨d.declarations, d.nested, unique?.or d.unique?, debugName?.or d.debugName?, priority?.or d.priority?⟩ := by
  cases d
  cases unique? <;> cases debugName? <;> cases priority? <;> rfl

/-- A selector of its own that came twice would be merged with what was brought first, hence the distinct keys. -/
theorem merge_eq_addAll (h : d.DistinctKeys) (base : Description) :
    merge base d = base.addAll (mergeItems base d) := by
  rw [mergeItems, addAll_append, addAll_append base, addAll_declarations, addAll_children, addAll_directives]
  obtain ⟨declarations, nested, unique?, debugName?, priority?⟩ := d
  rw [merge, mergeNested_eq_putAll h.selectors]
  rfl

theorem extend_concat (ds : List (Option Description)) (d : Description) :
    extend (ds ++ [some d]) = merge (extend ds) d := by
  rw [extend, List.filterMap_append, List.foldl_append]
  rfl

end StyleEngine.Description
