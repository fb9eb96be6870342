import StyleEngine.Proofs.Style.Grouping

/-!
# The last writer

What a list of descriptions is extended to is known level by level. At every path the parts of the descriptions that
have one are merged in turn, so every reading that the upper of two merged levels decides is decided by the last part
that gives it (`reading_foldl_merge`): values that are not falsy, the unique flag, debug names that are not empty and
priorities above zero. Selectors stand in the order in which they are met first (`keysAt_foldl_merge`).
-/

namespace StyleEngine

namespace Description

variable {α : Type} {a b c d e : Description} {ds : List Description} {p : String} {path : List String}

/-! ## Readings -/

/-- The value of a property, unless it is falsy. -/
def truthy? (d : Description) (p : String) : Option Value := (d.get? p).filter (!·.isFalsy)

/-- The priority, unless it is zero. -/
def raise? (d : Description) : Option Nat := d.priority?.filter (0 < ·)

/-- The unique flag, if it is set to true. -/
def marked? (d : Description) : Option Bool := d.unique?.filter id

/-- The upper one of two merged levels decides, if it says anything. -/
def Overrides (f : Description → Option α) : Prop := ∀ a b, b.DistinctKeys → f (merge a b) = (f b).or (f a)

theorem filter_or (q : α → Bool) (x y : Option α) : ((x.filter q).or y).filter q = (x.filter q).or (y.filter q) := by
  simpa only [Option.or_none] using filter_or_filter q none y x

theorem overrides_truthy? (p : String) : Overrides fun d => d.truthy? p := fun a b hb => by
  show ((merge a b).get? p).filter _ = _
  rw [get?_merge hb, filter_or]
  rfl

theorem overrides_raise? : Overrides raise? := fun a b _ => by
  rw [raise?, priority?_merge, filter_or]
  rfl

theorem overrides_marked? : Overrides marked? := fun a b _ => by
  rw [marked?, unique?_merge, filter_or]
  rfl

theorem overrides_shownName? : Overrides shownName? := fun a b _ => by
  rw [shownName?, debugName?_merge, filter_or]
  rfl

/-- What the descriptions have at the path, in order. -/
def partsAt (path : List String) (ds : List Description) : List Description := ds.filterMap (·.nestedAt? path)

/-- The last part that gives a reading decides it, and else what was there before. -/
theorem reading_foldl_merge {f : Description → Option α} (hf : Overrides f) (hds : ∀ c ∈ ds, c.Distinct)
    (d : Description) (path : List String) :
    ((ds.foldl merge d).nestedAt? path).bind f =
      ((partsAt path ds).filterMap f).getLast?.or ((d.nestedAt? path).bind f) := by
  induction ds generalizing d with
  | nil => rfl
  | cons c rest ih =>
    obtain ⟨hc, hrest⟩ := List.forall_mem_cons.mp hds
    rw [List.foldl_cons, ih hrest (merge d c), nestedAt?_merge hc, partsAt, partsAt, List.filterMap_cons]
    cases hy : c.nestedAt? path with
    | none => rfl
    | some y =>
      have honto : f (mergeOnto (d.nestedAt? path) y) = (f y).or ((d.nestedAt? path).bind f) := by
        cases d.nestedAt? path with
        | none => exact Option.or_none.symm
        | some x => exact hf x y (hc path y hy)
      show Option.or _ (f (mergeOnto (d.nestedAt? path) y)) = _
      rw [honto, List.filterMap_cons]
      cases hv : f y with
      | none => rfl
      | some v => simp [List.getLast?_cons]

/-- A level is there if it was there before or some description has it. -/
theorem isSome_nestedAt?_foldl_merge (hds : ∀ c ∈ ds, c.Distinct) (d : Description) (path : List String) :
    ((ds.foldl merge d).nestedAt? path).isSome ↔
      (d.nestedAt? path).isSome ∨ ∃ c ∈ ds, (c.nestedAt? path).isSome := by
  induction ds generalizing d with
  | nil => simp
  | cons c rest ih =>
    obtain ⟨hc, hrest⟩ := List.forall_mem_cons.mp hds
    have hmerge : ((merge d c).nestedAt? path).isSome ↔ (d.nestedAt? path).isSome ∨ (c.nestedAt? path).isSome := by
      rw [nestedAt?_merge hc]
      cases c.nestedAt? path <;> simp [mergeParts]
    rw [List.foldl_cons, ih hrest, hmerge]
    simp only [List.mem_cons, exists_eq_or_imp, or_assoc]

/-! ## Selectors -/

/-- The selectors of a level that may be absent. -/
def keysAt (d? : Option Description) : List String := d?.elim [] fun d => Keyed.keys d.nested

theorem Distinct.nodup_keysAt (h : d.Distinct) (path : List String) : (keysAt (d.nestedAt? path)).Nodup := by
  cases he : d.nestedAt? path with
  | none => exact List.nodup_nil
  | some e => exact (h path e he).selectors

theorem keysAt_mergeParts {d? : Option Description} (h : (keysAt d?).Nodup) (he : e.DistinctKeys) :
    keysAt (mergeParts d? (some e)) = (keysAt d? ++ Keyed.keys e.nested).eraseDups := by
  cases d? with
  | none => exact (Keyed.eraseDups_of_nodup he.selectors).symm
  | some d =>
    show Keyed.keys (merge d e).nested = (Keyed.keys d.nested ++ Keyed.keys e.nested).eraseDups
    rw [keys_nested_merge he, Keyed.keys_putAll h]

/-- The selectors of the parts come behind those that are there, each where it is met first. -/
theorem keysAt_foldl_merge (hds : ∀ c ∈ ds, c.Distinct) (hd : d.Distinct) (path : List String) :
    keysAt ((ds.foldl merge d).nestedAt? path) =
      (keysAt (d.nestedAt? path) ++ (partsAt path ds).flatMap fun part => Keyed.keys part.nested).eraseDups := by
  induction ds generalizing d with
  | nil =>
    show keysAt (d.nestedAt? path) = (keysAt (d.nestedAt? path) ++ []).eraseDups
    rw [List.append_nil, Keyed.eraseDups_of_nodup (hd.nodup_keysAt path)]
  | cons c rest ih =>
    obtain ⟨hc, hrest⟩ := List.forall_mem_cons.mp hds
    rw [List.foldl_cons, ih hrest (hd.merge hc), partsAt, partsAt, List.filterMap_cons]
    cases hy : c.nestedAt? path with
    | none => rw [nestedAt?_merge hc, hy]; rfl
    | some y =>
      have hkeys : keysAt ((merge d c).nestedAt? path) =
          (keysAt (d.nestedAt? path) ++ Keyed.keys y.nested).eraseDups := by
        rw [nestedAt?_merge hc, hy, keysAt_mergeParts (hd.nodup_keysAt path) (hc path y hy)]
      rw [hkeys, Keyed.eraseDups_eraseDups_append, List.flatMap_cons, List.append_assoc]

/-! ## Extending -/

/-- Each reading of the level is that of the last part that gives it, and its selectors are those of the parts, each
where it is met first. -/
structure LastWritten (parts : List Description) (d : Description) : Prop where
  values : ∀ p, d.truthy? p = (parts.filterMap (·.truthy? p)).getLast?
  unique : d.isUnique = true ↔ ∃ part ∈ parts, part.isUnique = true
  debugName : d.shownName? = (parts.filterMap shownName?).getLast?
  priority : d.raise? = (parts.filterMap raise?).getLast?
  selectors : Keyed.keys d.nested = (parts.flatMap fun part => Keyed.keys part.nested).eraseDups

theorem isUnique_iff_marked? (d : Description) : d.isUnique = true ↔ d.marked?.isSome = true := by
  rw [isUnique, marked?]
  cases d.unique? with
  | none => decide
  | some unique => cases unique <;> decide

theorem exists_isUnique_iff (parts : List Description) :
    (parts.filterMap marked?).getLast?.isSome = true ↔ ∃ part ∈ parts, part.isUnique = true := by
  constructor
  · intro h
    obtain ⟨unique, hlast⟩ := Option.isSome_iff_exists.mp h
    obtain ⟨part, hpart, hmarked⟩ := List.mem_filterMap.mp (List.mem_of_getLast? hlast)
    exact ⟨part, hpart, (isUnique_iff_marked? part).mpr (Option.isSome_of_eq_some hmarked)⟩
  · rintro ⟨part, hpart, hunique⟩
    obtain ⟨unique, hmarked⟩ := Option.isSome_iff_exists.mp ((isUnique_iff_marked? part).mp hunique)
    exact List.getLast?_isSome.mpr (List.ne_nil_of_mem (List.mem_filterMap.mpr ⟨part, hpart, hmarked⟩))

theorem nestedAt?_empty_bind {f : Description → Option α} (hf : f {} = none) (path : List String) :
    (nestedAt? {} path).bind f = none := by
  cases path with
  | nil => exact hf
  | cons s path => rfl

/-- What a list is extended to has a description at a path, apart from the root, if and only if one of the list has
one there, and that description is what was written last. -/
theorem extend_last_written (ds : List (Option Description)) (hds : ∀ d, some d ∈ ds → d.Distinct)
    (path : List String) :
    (((extend ds).nestedAt? path).isSome ↔ path = [] ∨ ∃ d, some d ∈ ds ∧ (d.nestedAt? path).isSome) ∧
    ∀ e, (extend ds).nestedAt? path = some e → LastWritten (partsAt path (ds.filterMap id)) e := by
  have hpresent : ∀ d ∈ ds.filterMap id, d.Distinct := fun d hd => hds d (mem_present.mp hd)
  constructor
  · have hroot : (nestedAt? {} path).isSome ↔ path = [] := by cases path <;> simp [nestedAt?, getNested?]
    rw [extend, isSome_nestedAt?_foldl_merge hpresent, hroot]
    simp only [mem_present]
  · intro e he
    have hreading : ∀ {α : Type} {f : Description → Option α}, Overrides f → f {} = none →
        f e = ((partsAt path (ds.filterMap id)).filterMap f).getLast? := by
      intro α f hf hempty
      have hfold := reading_foldl_merge hf hpresent {} path
      rwa [nestedAt?_empty_bind hempty, Option.or_none, ← extend, he] at hfold
    refine ⟨fun p => hreading (overrides_truthy? p) rfl, ?_, hreading overrides_shownName? rfl,
      hreading overrides_raise? rfl, ?_⟩
    · rw [isUnique_iff_marked?, hreading overrides_marked? rfl, exists_isUnique_iff]
    · have hkeys := keysAt_foldl_merge hpresent distinct_empty path
      have hempty : keysAt (nestedAt? {} path) = [] := by cases path <;> rfl
      rwa [← extend, he, hempty, List.nil_append] at hkeys

/-- The selector of three descriptions, with falsy values in the first and the last. -/
def hoverBase : Description :=
  wrap { declarations := [("color", .text ""), ("margin", .text "0")], nested := [("i", {})], unique? := some false
         debugName? := some "" } "&:hover"

def hoverMiddle : Description :=
  (wrap { declarations := [("color", .text "blue")], nested := [("b", {}), ("i", {})], debugName? := some "hot"
          priority? := some 2 } "&:hover").nest "p" {}

def hoverTop : Description :=
  wrap { declarations := [("color", .null)], unique? := some true, priority? := some 0 } "&:hover"

def hoverWritten : Description :=
  { declarations := [("color", .text "blue"), ("margin", .text "0")], nested := [("i", {}), ("b", {})]
    unique? := some true, debugName? := some "hot", priority? := some 2 }

theorem distinct_leaves {declarations : List (String × Value)} {unique? : Option Bool} {debugName? : Option String}
    {priority? : Option Nat} (l : List String) (hl : l.Nodup) (hd : (Keyed.keys declarations).Nodup) :
    Distinct ⟨declarations, l.map fun s => (s, {}), unique?, debugName?, priority?⟩ := by
  refine distinct_iff.mpr ⟨⟨hd, ?_⟩, fun s child hchild => ?_⟩
  · simpa [Keyed.keys, Function.comp_def] using hl
  · obtain ⟨t, -, he⟩ := List.mem_map.mp (Keyed.mem_of_lookup hchild)
    obtain ⟨-, rfl⟩ := Prod.mk.inj he
    exact distinct_empty

theorem extend_last_written_hover :
    (∀ d, some d ∈ [some hoverBase, none, some hoverMiddle, some hoverTop] → d.Distinct) ∧
    (extend [some hoverBase, none, some hoverMiddle, some hoverTop]).nestedAt? ["&:hover"] = some hoverWritten ∧
    LastWritten (partsAt ["&:hover"] [hoverBase, hoverMiddle, hoverTop]) hoverWritten := by
  have hdistinct : ∀ d, some d ∈ [some hoverBase, none, some hoverMiddle, some hoverTop] → d.Distinct := by
    intro d hd
    have hall : d = hoverBase ∨ d = hoverMiddle ∨ d = hoverTop := by simpa using hd
    rcases hall with rfl | rfl | rfl
    · exact distinct_empty.nest _ (distinct_leaves ["i"] (by decide) (by decide))
    · exact (distinct_empty.nest _ (distinct_leaves ["b", "i"] (by decide) (by decide))).nest _ distinct_empty
    · exact distinct_empty.nest _ (distinct_leaves [] (by decide) (by decide))
  have hwritten : (extend [some hoverBase, none, some hoverMiddle, some hoverTop]).nestedAt? ["&:hover"] =
      some hoverWritten := rfl
  exact ⟨hdistinct, hwritten, (extend_last_written _ hdistinct _).2 _ hwritten⟩

end Description

end StyleEngine
