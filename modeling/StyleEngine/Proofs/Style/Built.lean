import StyleEngine.MediaQuery
import StyleEngine.Proofs.Style.Grouping
import StyleEngine.Proofs.Style.Items

/-!
# Descriptions as ordered maps

Whatever a description is built with, it has each property and each selector once at every depth. So storing puts a
value in the place of the one that is there or behind all others, and of all values that are stored under a key the
last is read (`built_ordered`). The same holds of the offsets of keyframes.
-/

namespace StyleEngine

namespace Description

/-! ## Building -/

/-- What building, data, extending and media queries lead to, in any combination. -/
inductive Built : Description → Prop where
  | empty : Built {}
  | set {d : Description} (h : Built d) (property : String) (value : Value) : Built (d.set property value)
  | nest {d child : Description} (h : Built d) (selector : String) (hchild : Built child) :
      Built (d.nest selector child)
  | withUnique {d : Description} (h : Built d) (unique : Bool) : Built (d.withUnique unique)
  | withDebugName {d : Description} (h : Built d) (name : String) : Built (d.withDebugName name)
  | withPriority {d : Description} (h : Built d) (priority : Nat) : Built (d.withPriority priority)
  | ofData {data : Data} {d : Description} (h : Description.ofData data = .ok d) : Built d
  | extend {ds : List (Option Description)} (h : ∀ d, some d ∈ ds → Built d) : Built (Description.extend ds)
  | media (query : MediaQuery) {ds : List (Option Description)} (h : ∀ d, some d ∈ ds → Built d) :
      Built (Description.media query ds)

variable {d e : Description}

theorem Built.distinct (h : d.Built) : d.Distinct := by
  induction h with
  | empty => exact distinct_empty
  | set _ property value ih => exact ih.set property value
  | nest _ selector _ ih ihchild => exact ih.nest selector ihchild
  | withUnique _ _ ih | withDebugName _ _ ih | withPriority _ _ ih => exact ih.withDirectives _ _ _
  | ofData h => exact distinct_ofData _ _ h
  | extend _ ih => exact distinct_extend ih
  | media query _ ih => exact distinct_empty.nest query.atRule (distinct_extend ih)

/-- A description stands at some depth of another one, or is it. -/
inductive Inside (e : Description) : Description → Prop where
  | self : Inside e e
  | child {d child : Description} {selector : String} (hchild : (selector, child) ∈ d.nested)
      (h : Inside e child) : Inside e d

theorem Distinct.inside (h : d.Distinct) (he : e.Inside d) : e.Distinct := by
  induction he with
  | self => exact h
  | child hchild _ ih => exact ih (h.child (Keyed.lookup_of_mem (h [] _ rfl).selectors hchild))

/-! ## Ordered maps -/

/-- Properties and selectors are distinct. Storing takes the place of what is there or goes last, and changes nothing
else. Of all that is stored under a key the last is read, and else what was there before. -/
structure Ordered (d : Description) : Prop where
  keys : d.DistinctKeys
  set : ∀ property value, ∃ after, Keyed.Stored property value d.declarations after ∧
    d.set property value = { d with declarations := after }
  nest : ∀ selector style, ∃ after, Keyed.Stored selector style d.nested after ∧
    d.nest selector style = { d with nested := after }
  get : ∀ items property, (d.addAll items).get? property =
    (Keyed.latest? property (items.filterMap Item.declaration?)).or (d.get? property)
  getNested : ∀ items selector, (d.addAll items).getNested? selector =
    (Keyed.latest? selector (items.filterMap Item.child?)).or (d.getNested? selector)

theorem DistinctKeys.ordered (h : d.DistinctKeys) : d.Ordered where
  keys := h
  set := fun property value => ⟨_, Keyed.stored_put h.properties property value, rfl⟩
  nest := fun selector style => ⟨_, Keyed.stored_put h.selectors selector style, rfl⟩
  get := get?_addAll d
  getNested := getNested?_addAll d

/-- Every description inside one with distinct keys is an ordered map. -/
theorem Distinct.ordered (h : d.Distinct) (he : e.Inside d) : e.Ordered := (h.inside he [] e rfl).ordered

end Description

namespace Keyframes

/-- What building and data lead to, in any combination. -/
inductive Built : Keyframes → Prop where
  | empty : Built {}
  | frame {k : Keyframes} {d : Description} (h : Built k) (offset : String) (hd : d.Built) : Built (k.frame offset d)
  | withDebugName {k : Keyframes} (h : Built k) (name : String) : Built (k.withDebugName name)
  | ofData {data : Data} {k : Keyframes} (h : Keyframes.ofData data = .ok k) : Built k

variable {k : Keyframes}

/-- Offsets are distinct, and the frames are ordered maps. -/
structure Distinct (k : Keyframes) : Prop where
  offsets : (Keyed.keys k.frames).Nodup
  frames : ∀ e ∈ k.frames, e.2.Distinct

theorem distinct_empty : Distinct {} := ⟨List.nodup_nil, nofun⟩

theorem Distinct.frame (h : k.Distinct) (offset : String) {d : Description} (hd : d.Distinct) :
    (k.frame offset d).Distinct where
  offsets := Keyed.nodup_keys_put h.offsets
  frames := fun e he => by
    rcases Keyed.mem_put he with rfl | he
    · exact hd
    · exact h.frames e he

theorem Distinct.withDebugName (h : k.Distinct) (name : String) : (k.withDebugName name).Distinct :=
  ⟨h.offsets, h.frames⟩

theorem distinct_addMembers {members : List (String × Data)} {k' : Keyframes} (h : k.Distinct)
    (he : k.addMembers members = .ok k') : k'.Distinct := by
  induction members generalizing k with
  | nil =>
    cases he
    exact h
  | cons member rest ih =>
    obtain ⟨key, value⟩ := member
    unfold addMembers at he
    split at he
    · split at he
      · exact ih h he
      · next name => exact ih (h.withDebugName name) he
      · cases he
    split at he
    · exact ih h he
    · cases hd : Description.ofData value with
      | error cause => rw [hd] at he; cases he
      | ok d =>
        rw [hd] at he
        exact ih (h.frame key (Description.distinct_ofData value d hd)) he

theorem Built.distinct (h : k.Built) : k.Distinct := by
  induction h with
  | empty => exact distinct_empty
  | frame _ offset hd ih => exact ih.frame offset hd.distinct
  | withDebugName _ name ih => exact ih.withDebugName name
  | @ofData data k h =>
    cases data with
    | map members => exact distinct_addMembers distinct_empty h
    | null | boolean _ | number _ | text _ | list _ => cases h

/-- Offsets are distinct, and a frame takes the place of the one that is there or goes last. The frames are ordered maps
at every depth. -/
structure Ordered (k : Keyframes) : Prop where
  offsets : (Keyed.keys k.frames).Nodup
  frame : ∀ offset style, ∃ after, Keyed.Stored offset style k.frames after ∧
    k.frame offset style = { k with frames := after }
  frames : ∀ e ∈ k.frames, ∀ d : Description, d.Inside e.2 → d.Ordered

theorem Distinct.ordered (h : k.Distinct) : k.Ordered where
  offsets := h.offsets
  frame := fun offset style => ⟨_, Keyed.stored_put h.offsets offset style, rfl⟩
  frames := fun e he _ hd => (h.frames e he).ordered hd

end Keyframes

namespace Description

/-- Descriptions that are built in any way are ordered maps at every depth, and so are keyframes. Reading data stores
what its members stand for, in their order, and extending by one more description stores what that one brings. -/
theorem built_ordered :
    (∀ d : Description, d.Built → ∀ e : Description, e.Inside d → e.Ordered) ∧
    (∀ data d, ofData data = .ok d → ∃ members, data = .map members ∧
      d = addAll {} (members.flatMap fun m => memberItems m.1 m.2)) ∧
    (∀ ds d, d.Built → extend (ds ++ [some d]) = (extend ds).addAll (mergeItems (extend ds) d)) ∧
    ∀ k : Keyframes, k.Built → k.Ordered := by
  refine ⟨fun d h e he => h.distinct.ordered he, fun data d h => ofData_eq_addAll h, fun ds d h => ?_,
    fun k h => h.distinct.ordered⟩
  rw [extend_concat]
  exact merge_eq_addAll (h.distinct [] d rfl) _

/-- Data with a selector that is nested twice. -/
def cardData : Data := .map [("color", .text "red"), ("&:hover", .map [("color", .text "blue")]),
  ("$nest", .map [("p", .boolean false), ("&:hover", .map [("margin", .text "0")])]), ("$unique", .boolean true)]

def cardRead : Description :=
  { declarations := [("color", .text "red")], nested := [("&:hover", { declarations := [("margin", .text "0")] })]
    unique? := some true }

def cardTop : Description := (set {} "color" (.text "")).nest "&:hover" (set {} "color" (.text "blue"))

/-- What was read and the description on top of it, extended and wrapped. -/
def card : Description := media { type? := some .print } [some cardRead, none, some cardTop]

/-- The child two levels below, merged from both. -/
def cardHover : Description := { declarations := [("margin", .text "0"), ("color", .text "blue")] }

def cardFrames : Keyframes := (Keyframes.frame {} "to" cardRead).frame "to" card

theorem built_ordered_card :
    card.Built ∧ cardHover.Inside card ∧ cardHover.Ordered ∧
    ofData cardData = .ok cardRead ∧
    cardRead = addAll {} [.declaration "color" (.text "red"), .child "&:hover" (set {} "color" (.text "blue")),
      .child "&:hover" (set {} "margin" (.text "0")), .unique true] ∧
    cardTop.Built ∧
    extend [some cardRead, some cardTop] =
      (extend [some cardRead]).addAll [.child "&:hover" cardHover] ∧
    cardFrames.Built ∧ cardFrames.Ordered := by
  have hdata : ofData cardData = .ok cardRead := rfl
  have hread : cardRead.Built := .ofData hdata
  have htop : cardTop.Built := (Built.empty.set _ _).nest _ (Built.empty.set _ _)
  have hcard : card.Built := by
    refine .media _ fun d hd => ?_
    rcases List.mem_cons.mp hd with hd | hd
    · exact Option.some.inj hd ▸ hread
    · obtain rfl : d = cardTop := by simpa using hd
      exact htop
  have hhover : cardHover.Inside card :=
    .child (List.mem_singleton.mpr rfl) (.child (List.mem_singleton.mpr rfl) .self)
  have hframes : cardFrames.Built := (Keyframes.Built.empty.frame _ hread).frame _ hcard
  obtain ⟨hordered, hitems, hextend, hkeyframes⟩ := built_ordered
  obtain ⟨members, hmembers, hadded⟩ := hitems _ _ hdata
  obtain rfl := Data.map.inj hmembers
  exact ⟨hcard, hhover, hordered card hcard _ hhover, hdata, hadded, htop, hextend [some cardRead] cardTop htop,
    hframes, hkeyframes cardFrames hframes⟩

end Description

end StyleEngine
