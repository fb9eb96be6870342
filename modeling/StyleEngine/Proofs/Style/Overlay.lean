import StyleEngine.Description.Extend
import StyleEngine.Proofs.Style.Distinct

/-!
# Laws of merging

What stands where in two merged descriptions. Merging commutes with reading at a path: at every path the
parts of both are merged, and a part that only one of them has is taken as it is (`nestedAt?_merge`). At one
level, what is truthy on top is read and else what was there before (`get?_merge`), and merging three levels
does not depend on which two are merged first, up to the order of declarations (`Level.merge_merge`).
-/

namespace StyleEngine.Description

variable {a b c d e : Description} {p s : String} {path : List String}

/-- A child on top of what is there. -/
def mergeOnto : Option Description → Description → Description
  | some base, child => merge base child
  | none, child => child

/-- A part on top of another, where either may be absent. -/
def mergeParts (a : Option Description) : Option Description → Option Description
  | some b => some (mergeOnto a b)
  | none => a

/-! ## One level -/

theorem declarations_merge (a b : Description) :
    (merge a b).declarations = overlay a.declarations b.declarations := by
  cases b
  rfl

theorem nested_merge (a b : Description) : (merge a b).nested = mergeNested a.nested b.nested := by
  cases b
  rfl

theorem unique?_merge (a b : Description) : (merge a b).unique? = (b.unique?.filter id).or a.unique? := by
  cases b
  rfl

theorem debugName?_merge (a b : Description) :
    (merge a b).debugName? = (b.debugName?.filter (!·.isEmpty)).or a.debugName? := by
  cases b
  rfl

theorem priority?_merge (a b : Description) :
    (merge a b).priority? = (b.priority?.filter (0 < ·)).or a.priority? := by
  cases b
  rfl

/-- What is truthy on top is read, and else what was there before. -/
theorem get?_merge (h : b.DistinctKeys) : (merge a b).get? p = ((b.get? p).filter (!·.isFalsy)).or (a.get? p) := by
  rw [get?, declarations_merge, overlay, Keyed.lookup_putAll ((Keyed.keys_filter_sublist _ _).nodup h.properties),
    Keyed.lookup_filter (fun v : Value => !v.isFalsy) h.properties]
  rfl

/-- A falsy value that is read was there before. -/
theorem get?_of_falsy {v : Value} (h : b.DistinctKeys) (hv : (merge a b).get? p = some v)
    (hfalsy : v.isFalsy = true) : a.get? p = some v := by
  rw [get?_merge h, Option.or_eq_some_iff] at hv
  rcases hv with hv | ⟨-, hv⟩
  · have htruthy := (Option.filter_eq_some_iff.mp hv).2
    rw [hfalsy] at htruthy
    cases htruthy
  · exact hv

/-- Merging children is storing each of them on top of the child that is there. -/
theorem mergeNested_eq_putAll {base added : List (String × Description)} (hnodup : (Keyed.keys added).Nodup) :
    mergeNested base added = Keyed.putAll base (added.map fun e => (e.1, mergeOnto (base.lookup e.1) e.2)) := by
  induction added generalizing base with
  | nil => rw [mergeNested]; rfl
  | cons first rest ih =>
    obtain ⟨s, child⟩ := first
    obtain ⟨hs, hnodup⟩ := List.nodup_cons.mp hnodup
    have hfirst : mergeNested base ((s, child) :: rest) =
        mergeNested (Keyed.put s (mergeOnto (base.lookup s) child) base) rest := by
      rw [mergeNested]
      cases hbase : base.lookup s with
      | some previous => rfl
      | none => rw [Keyed.put_of_notMem (Keyed.lookup_eq_none_iff.mp hbase)]; rfl
    have hrest : rest.map (fun e => (e.1,
        mergeOnto ((Keyed.put s (mergeOnto (base.lookup s) child) base).lookup e.1) e.2)) =
        rest.map fun e => (e.1, mergeOnto (base.lookup e.1) e.2) := by
      refine List.map_congr_left fun e he => ?_
      have hmem : e.1 ∈ Keyed.keys rest := List.mem_map_of_mem he
      have hne : e.1 ≠ s := fun h => hs (h ▸ hmem)
      rw [Keyed.lookup_put_ne hne]
    rw [hfirst, ih hnodup, hrest]
    rfl

theorem getNested?_merge (h : b.DistinctKeys) :
    (merge a b).getNested? s = mergeParts (a.getNested? s) (b.getNested? s) := by
  rw [getNested?, nested_merge, mergeNested_eq_putAll h.selectors,
    Keyed.lookup_putAll (by rw [Keyed.keys_map]; exact h.selectors), Keyed.lookup_map, getNested?, getNested?]
  cases b.nested.lookup s <;> rfl

theorem keys_nested_merge (h : b.DistinctKeys) :
    Keyed.keys (merge a b).nested = Keyed.keys (Keyed.putAll a.nested b.nested) := by
  rw [nested_merge, mergeNested_eq_putAll h.selectors]
  exact Keyed.keys_putAll_congr rfl (Keyed.keys_map _ _)

theorem DistinctKeys.merge (ha : a.DistinctKeys) (hb : b.DistinctKeys) : (merge a b).DistinctKeys where
  properties := by
    rw [declarations_merge]
    exact Keyed.nodup_keys_putAll ha.properties
  selectors := by
    rw [keys_nested_merge hb]
    exact Keyed.nodup_keys_putAll ha.selectors

/-! ## All levels -/

/-- Merging is merging the parts at every path. -/
theorem nestedAt?_merge (h : b.Distinct) (path : List String) :
    (merge a b).nestedAt? path = mergeParts (a.nestedAt? path) (b.nestedAt? path) := by
  induction path generalizing a b with
  | nil => rfl
  | cons s path ih =>
    rw [nestedAt?, nestedAt?, nestedAt?, getNested?_merge (h [] b rfl)]
    cases hb : b.getNested? s with
    | none => rfl
    | some y =>
      cases a.getNested? s with
      | none => cases hy : y.nestedAt? path <;> simp [mergeParts, mergeOnto, hy]
      | some x => exact ih (h.child hb)

theorem Distinct.merge (ha : a.Distinct) (hb : b.Distinct) : (merge a b).Distinct := by
  intro path e he
  rw [nestedAt?_merge hb] at he
  cases hy : b.nestedAt? path with
  | none =>
    rw [hy] at he
    exact ha path e he
  | some y =>
    rw [hy] at he
    obtain rfl := Option.some.inj he
    cases hx : a.nestedAt? path with
    | none => exact hb path y hy
    | some x => exact (ha path x hx).merge (hb path y hy)

/-! ## Merging three levels -/

/-- `c` has a value for a property that is falsy in `b`. -/
def Revives (c b : Description) (p : String) : Prop :=
  ∃ v w, b.get? p = some v ∧ v.isFalsy = true ∧ c.get? p = some w ∧ w.isFalsy = false

/-- One level of two descriptions is the same, children aside. The order of declarations may count. -/
structure Level (ordered : Prop) (d e : Description) : Prop where
  values : ∀ p, d.get? p = e.get? p
  order : ordered → d.declarations = e.declarations
  selectors : Keyed.keys d.nested = Keyed.keys e.nested
  unique : d.unique? = e.unique?
  debugName : d.debugName? = e.debugName?
  priority : d.priority? = e.priority?

theorem Level.refl (ordered : Prop) (d : Description) : Level ordered d d :=
  ⟨fun _ => rfl, fun _ => rfl, rfl, rfl, rfl, rfl⟩

theorem Level.trans {ordered : Prop} (h : Level ordered d e) (h' : Level ordered e c) : Level ordered d c where
  values := fun p => (h.values p).trans (h'.values p)
  order := fun ho => (h.order ho).trans (h'.order ho)
  selectors := h.selectors.trans h'.selectors
  unique := h.unique.trans h'.unique
  debugName := h.debugName.trans h'.debugName
  priority := h.priority.trans h'.priority

theorem Level.merge {ordered : Prop} (h : Level ordered d e) (hc : c.DistinctKeys) :
    Level ordered (merge d c) (merge e c) where
  values := fun p => by rw [get?_merge hc, get?_merge hc, h.values]
  order := fun ho => by rw [declarations_merge, declarations_merge, h.order ho]
  selectors := by
    rw [keys_nested_merge hc, keys_nested_merge hc]
    exact Keyed.keys_putAll_congr h.selectors rfl
  unique := by rw [unique?_merge, unique?_merge, h.unique]
  debugName := by rw [debugName?_merge, debugName?_merge, h.debugName]
  priority := by rw [priority?_merge, priority?_merge, h.priority]

/-- Falsy values are dropped before or after something is put on top. -/
theorem filter_or_filter {α : Type} (q : α → Bool) (x y z : Option α) :
    (((z.filter q).or y).filter q).or x = (z.filter q).or ((y.filter q).or x) := by
  cases z with
  | none => rfl
  | some v =>
    rw [Option.filter_some]
    split
    · next h => rw [Option.some_or, Option.filter_some, if_pos h, Option.some_or, Option.some_or]
    · rw [Option.none_or, Option.none_or]

theorem overlay_overlay {base added more : List (String × Value)} (hadded : (Keyed.keys added).Nodup)
    (h : ∀ p v w, (p, v) ∈ added → (p, w) ∈ more → w.isFalsy = false → v.isFalsy = false) :
    overlay base (overlay added more) = overlay (overlay base added) more := by
  have htruthy : ∀ e ∈ more.filter (!·.2.isFalsy), (!e.2.isFalsy) = true := fun e he => (List.mem_filter.mp he).2
  have hkept : ∀ e ∈ more.filter (!·.2.isFalsy), ∀ v, (e.1, v) ∈ added → (!v.isFalsy) = true := by
    intro e he v hv
    obtain ⟨hmem, hvalue⟩ := List.mem_filter.mp he
    rw [h e.1 v e.2 hv hmem (by simpa using hvalue)]
    rfl
  rw [overlay, overlay, overlay, overlay,
    Keyed.filter_putAll (p := fun e : String × Value => !e.2.isFalsy) htruthy hkept,
    Keyed.putAll_putAll ((Keyed.keys_filter_sublist _ added).nodup hadded)]

/-- It does not matter which two are merged first, but for the order of declarations: a property that is falsy
in the second level has a place in it, which the third one can take. -/
theorem Level.merge_merge {ordered : Prop} (hb : b.DistinctKeys) (hc : c.DistinctKeys)
    (horder : ordered → ∀ p, ¬ Revives c b p) :
    Level ordered (Description.merge a (Description.merge b c)) (Description.merge (Description.merge a b) c) where
  values := fun p => by
    rw [get?_merge (hb.merge hc), get?_merge hc, get?_merge hc, get?_merge hb, filter_or_filter]
  order := fun ho => by
    simp only [declarations_merge]
    refine overlay_overlay hb.properties fun p v w hv hw hvalue => ?_
    refine Bool.eq_false_iff.mpr fun hfalsy => horder ho p ⟨v, w, ?_, hfalsy, ?_, hvalue⟩
    · exact Keyed.lookup_of_mem hb.properties hv
    · exact Keyed.lookup_of_mem hc.properties hw
  selectors := by
    rw [keys_nested_merge (hb.merge hc), keys_nested_merge hc]
    calc
      Keyed.keys (Keyed.putAll a.nested (Description.merge b c).nested)
      _ = Keyed.keys (Keyed.putAll a.nested (Keyed.putAll b.nested c.nested)) :=
        Keyed.keys_putAll_congr rfl (keys_nested_merge hc)
      _ = Keyed.keys (Keyed.putAll (Keyed.putAll a.nested b.nested) c.nested) := by
        rw [Keyed.putAll_putAll hb.selectors]
      _ = Keyed.keys (Keyed.putAll (Description.merge a b).nested c.nested) :=
        Keyed.keys_putAll_congr (keys_nested_merge hb).symm rfl
  unique := by simp only [unique?_merge, filter_or_filter]
  debugName := by simp only [debugName?_merge, filter_or_filter]
  priority := by simp only [priority?_merge, filter_or_filter]

end StyleEngine.Description
