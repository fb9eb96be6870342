import StyleEngine.Declaration

/-!
# Declarations by property

A sorted list of declarations is told by its groups, the declarations of one property in order
(`eq_of_groups`). Sorting leaves the groups as they are and a replacement takes each group from one
side, so replacements may be gathered before they are made (`replace_replace`), and after many of them
each group is that of the last list that has one (`group_foldl_replace`).
-/

namespace StyleEngine

namespace Declaration

/-- Sorted by property. -/
def Sorted (ds : List Declaration) : Prop := ds.Pairwise fun d e => d.property ≤ e.property

/-- The declarations of one property, in order. -/
def group (p : String) (ds : List Declaration) : List Declaration := ds.filter fun d => d.property == p

variable {p : String} {d : Declaration} {ds old new : List Declaration}

theorem mem_group : d ∈ group p ds ↔ d ∈ ds ∧ d.property = p := by
  rw [group, List.mem_filter, beq_iff_eq]

theorem group_append (p : String) (ds es : List Declaration) : group p (ds ++ es) = group p ds ++ group p es :=
  List.filter_append ..

theorem group_eq_nil_iff : group p ds = [] ↔ ∀ d ∈ ds, d.property ≠ p := by
  rw [group, List.filter_eq_nil_iff]
  exact forall₂_congr fun d _ => not_congr beq_iff_eq

/-! ## Sorting -/

theorem sorted_insertSorted (h : Sorted ds) : Sorted (insertSorted d ds) := by
  induction ds with
  | nil => exact List.pairwise_singleton ..
  | cons e rest ih =>
    obtain ⟨hhead, hrest⟩ := List.pairwise_cons.mp h
    rw [insertSorted]
    split
    · next hle =>
      refine List.pairwise_cons.mpr ⟨fun f hf => ?_, h⟩
      rcases List.mem_cons.mp hf with rfl | hf
      · exact hle
      · exact String.le_trans hle (hhead f hf)
    · next hle =>
      refine List.pairwise_cons.mpr ⟨fun f hf => ?_, ih hrest⟩
      rcases List.mem_cons.mp ((insertSorted_perm d rest).mem_iff.mp hf) with rfl | hf
      · exact (String.le_total f.property e.property).resolve_left hle
      · exact hhead f hf

theorem sorted_sort (ds : List Declaration) : Sorted (sort ds) := by
  induction ds with
  | nil => exact .nil
  | cons d rest ih => exact sorted_insertSorted ih

theorem sorted_replace (old new : List Declaration) : Sorted (replace old new) := sorted_sort _

/-- A declaration goes in front of those with its property. -/
theorem group_insertSorted (p : String) (d : Declaration) (ds : List Declaration) :
    group p (insertSorted d ds) = group p (d :: ds) := by
  induction ds with
  | nil => rfl
  | cons e rest ih =>
    rw [insertSorted]
    split
    · rfl
    · next hle =>
      have hne : d.property ≠ e.property := fun he => hle (he ▸ String.le_refl _)
      have hstep : group p (e :: insertSorted d rest) = group p [e] ++ group p (insertSorted d rest) :=
        group_append p [e] _
      have hboth : group p (d :: e :: rest) = group p [d, e] ++ group p rest := group_append p [d, e] _
      have hone : group p (d :: rest) = group p [d] ++ group p rest := group_append p [d] _
      rw [hstep, ih, hone, hboth, ← List.append_assoc]
      congr 1
      -- at most one of the two has the property
      by_cases hd : d.property = p
      · have he : e.property ≠ p := fun he => hne (hd.trans he.symm)
        simp [group, hd, he]
      · simp [group, hd]

/-- Sorting is stable. -/
theorem group_sort (p : String) (ds : List Declaration) : group p (sort ds) = group p ds := by
  induction ds with
  | nil => rfl
  | cons d rest ih =>
    have hcons : ∀ es, group p (d :: es) = group p [d] ++ group p es := group_append p [d]
    rw [sort, group_insertSorted, hcons, ih, ← hcons]

/-- Sorted lists with the same groups are the same. -/
theorem eq_of_groups {ds es : List Declaration} (hds : Sorted ds) (hes : Sorted es)
    (h : ∀ p, group p ds = group p es) : ds = es := by
  induction ds generalizing es with
  | nil =>
    cases es with
    | nil => rfl
    | cons e rest =>
      have he : e ∈ group e.property (e :: rest) := mem_group.mpr ⟨List.mem_cons_self, rfl⟩
      rw [← h] at he
      exact absurd he List.not_mem_nil
  | cons d rest ih =>
    have hmem : d ∈ group d.property es := h _ ▸ mem_group.mpr ⟨List.mem_cons_self, rfl⟩
    cases es with
    | nil => exact absurd hmem List.not_mem_nil
    | cons e rest' =>
      obtain ⟨hd, hrest⟩ := List.pairwise_cons.mp hds
      obtain ⟨he, hrest'⟩ := List.pairwise_cons.mp hes
      have hle : ∀ {a : Declaration} {as : List Declaration} {b : Declaration},
          (∀ c ∈ as, a.property ≤ c.property) → b ∈ a :: as → a.property ≤ b.property := by
        intro a as b hall hb
        rcases List.mem_cons.mp hb with rfl | hb
        · exact String.le_refl _
        · exact hall b hb
      have hmem' : e ∈ group e.property (d :: rest) := h _ ▸ mem_group.mpr ⟨List.mem_cons_self, rfl⟩
      -- both heads have the least property, so they are the heads of one group
      have hp : d.property = e.property :=
        String.le_antisymm (hle hd (mem_group.mp hmem').1) (hle he (mem_group.mp hmem).1)
      have hheads : d :: group d.property rest = e :: group d.property rest' := by
        have hgroups := h d.property
        simpa [group, hp] using hgroups
      obtain ⟨rfl, -⟩ := List.cons.inj hheads
      refine congrArg (d :: ·) (ih hrest hrest' fun p => ?_)
      have hgroups := h p
      rw [group, group, List.filter_cons, List.filter_cons] at hgroups
      split at hgroups
      · exact (List.cons.inj hgroups).2
      · exact hgroups

/-! ## Replacing -/

/-- A group is replaced as a whole. -/
theorem group_replace (p : String) (old new : List Declaration) :
    group p (replace old new) = if group p new = [] then group p old else group p new := by
  rw [replace, group_sort, group_append]
  split
  · next hnew =>
    have hold : ∀ d ∈ old, d.property = p → (new.map property).contains d.property = false := by
      intro d _ hd
      refine Bool.eq_false_iff.mpr fun hc => ?_
      obtain ⟨e, he, hep⟩ := List.mem_map.mp (List.contains_iff_mem.mp hc)
      exact group_eq_nil_iff.mp hnew e he (hep.trans hd)
    rw [hnew, List.append_nil, group, List.filter_filter, group]
    refine List.filter_congr fun d hd => ?_
    by_cases hp : d.property = p
    · rw [hold d hd hp]
      simp
    · simp [hp]
  · next hnew =>
    have hold : group p (old.filter fun d => !(new.map property).contains d.property) = [] := by
      refine group_eq_nil_iff.mpr fun d hd hp => hnew (group_eq_nil_iff.mpr fun e he hep => ?_)
      have hmem : d.property ∈ new.map property := List.mem_map.mpr ⟨e, he, hep.trans hp.symm⟩
      have hkept : (!(new.map property).contains d.property) = true := (List.mem_filter.mp hd).2
      rw [List.contains_iff_mem.mpr hmem] at hkept
      cases hkept
    rw [hold, List.nil_append]

/-- Replacing twice is replacing by what the second makes of the first. -/
theorem replace_replace (old first second : List Declaration) :
    replace (replace old first) second = replace old (replace first second) := by
  refine eq_of_groups (sorted_replace _ _) (sorted_replace _ _) fun p => ?_
  simp only [group_replace]
  by_cases h : group p second = []
  · rw [if_pos h, if_pos h]
  · rw [if_neg h, if_neg h, if_neg h]

theorem replace_self (h : Sorted ds) : replace ds ds = ds := by
  refine eq_of_groups (sorted_replace _ _) h fun p => ?_
  rw [group_replace]
  split
  · rfl
  · rfl

/-- A replacement that was made is made again without effect. -/
theorem replace_replace_self (old new : List Declaration) : replace (replace old new) new = replace old new := by
  refine eq_of_groups (sorted_replace _ _) (sorted_replace _ _) fun p => ?_
  rw [group_replace, group_replace]
  split
  · rfl
  · rfl

theorem sorted_foldl_replace (h : Sorted old) (news : List (List Declaration)) :
    Sorted (news.foldl replace old) := by
  induction news generalizing old with
  | nil => exact h
  | cons new rest ih => exact ih (sorted_replace old new)

/-- The declarations of a property in the last of the lists that has any. -/
def lastGroup (p : String) : List (List Declaration) → List Declaration
  | [] => []
  | ds :: rest => if lastGroup p rest = [] then group p ds else lastGroup p rest

theorem lastGroup_append (p : String) (first second : List (List Declaration)) :
    lastGroup p (first ++ second) = if lastGroup p second = [] then lastGroup p first else lastGroup p second := by
  induction first with
  | nil =>
    rw [List.nil_append, lastGroup]
    split
    · next h => exact h
    · rfl
  | cons ds rest ih =>
    rw [List.cons_append, lastGroup, lastGroup, ih]
    by_cases h : lastGroup p second = []
    · rw [if_pos h, if_pos h]
    · rw [if_neg h, if_neg h, if_neg h]

/-- After replacements in order, each group is the last one that came. -/
theorem group_foldl_replace (p : String) (old : List Declaration) (news : List (List Declaration)) :
    group p (news.foldl replace old) = lastGroup p (old :: news) := by
  induction news generalizing old with
  | nil => rfl
  | cons new rest ih =>
    rw [List.foldl_cons, ih, lastGroup, lastGroup, lastGroup, group_replace]
    by_cases hrest : lastGroup p rest = []
    · rw [if_pos hrest, if_pos hrest]
    · rw [if_neg hrest, if_neg hrest, if_neg hrest]

theorem lastGroup_map_sort (p : String) (given : List (List Declaration)) :
    lastGroup p (given.map sort) = lastGroup p given := by
  induction given with
  | nil => rfl
  | cons ds rest ih => rw [List.map_cons, lastGroup, lastGroup, ih, group_sort]

end Declaration

end StyleEngine
