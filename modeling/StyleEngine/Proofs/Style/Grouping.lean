import StyleEngine.Proofs.Style.Overlay

/-!
# Extending by groups

Descriptions can be merged group by group. All values, selectors and directives are the same as when all are
merged in turn, at every level, and so is the order of the declarations of the root (`extend_groups`). Below
the root the order may differ: a child under a new selector is taken as it is, with the places of its falsy
values, and within a group a later description can take such a place. If none does, both are equal.
-/

namespace StyleEngine.Description

variable {a b c d e m x y : Description} {s : String} {path : List String} {ordered : List String → Prop}

/-! ## The same at every level -/

/-- The same level at every path, with the declarations in the same order at those that are `ordered`. -/
def Alike (ordered : List String → Prop) (d e : Description) : Prop :=
  ∀ path, Option.Rel (Level (ordered path)) (d.nestedAt? path) (e.nestedAt? path)

theorem rel_refl {ordered : Prop} (x : Option Description) : Option.Rel (Level ordered) x x := by
  cases x with
  | none => exact .none
  | some d => exact .some (Level.refl ordered d)

theorem Alike.refl (ordered : List String → Prop) (d : Description) : Alike ordered d d := fun _ => rel_refl _

theorem Alike.trans (h : Alike ordered d e) (h' : Alike ordered e c) : Alike ordered d c := by
  intro path
  have hpath := h path
  have hpath' := h' path
  generalize d.nestedAt? path = d' at hpath
  generalize e.nestedAt? path = e' at hpath hpath'
  generalize c.nestedAt? path = c' at hpath'
  cases hpath with
  | none => exact hpath'
  | some hlevel =>
    cases hpath' with
    | some hlevel' => exact .some (hlevel.trans hlevel')

theorem Alike.merge (h : Alike ordered d e) (hc : c.Distinct) : Alike ordered (merge d c) (merge e c) := by
  intro path
  rw [nestedAt?_merge hc, nestedAt?_merge hc]
  have hpath := h path
  generalize d.nestedAt? path = d' at hpath
  generalize e.nestedAt? path = e' at hpath
  cases hz : c.nestedAt? path with
  | none => exact hpath
  | some z =>
    cases hpath with
    | none => exact rel_refl _
    | some hlevel => exact .some (hlevel.merge (hc path z hz))

theorem Alike.foldl_merge {ds : List Description} (h : Alike ordered d e) (hds : ∀ c ∈ ds, c.Distinct) :
    Alike ordered (ds.foldl Description.merge d) (ds.foldl Description.merge e) := by
  induction ds generalizing d e with
  | nil => exact h
  | cons c rest ih =>
    obtain ⟨hc, hrest⟩ := List.forall_mem_cons.mp hds
    exact ih (h.merge hc) hrest

theorem sizeOf_child_lt {child : Description} (h : d.getNested? s = some child) : sizeOf child < sizeOf d := by
  have hmem := List.sizeOf_lt_of_mem (Keyed.mem_of_lookup h)
  cases d
  simp only [Prod.mk.sizeOf_spec, mk.sizeOf_spec] at hmem ⊢
  omega

/-- Descriptions whose levels are all the same, in the same order, are equal. -/
theorem eq_of_alike (d e : Description) (h : Alike (fun _ => True) d e) (hd : d.Distinct) : d = e := by
  have hroot : Level True d e := by
    cases h [] with
    | some hlevel => exact hlevel
  have hnested : d.nested = e.nested := by
    refine Keyed.eq_of_lookup_eq (hd [] d rfl).selectors hroot.selectors fun s => ?_
    cases hs : d.nested.lookup s with
    | none =>
      rw [Keyed.lookup_eq_none_iff, hroot.selectors] at hs
      exact (Keyed.lookup_eq_none_iff.mpr hs).symm
    | some d' =>
      obtain ⟨e', he⟩ := Keyed.exists_lookup_of_keys_eq hroot.selectors hs
      have hchild : Alike (fun _ => True) d' e' := by
        intro path
        have hpath := h (s :: path)
        rw [nestedAt?, nestedAt?, getNested?, getNested?, hs, he] at hpath
        exact hpath
      rw [he, eq_of_alike d' e' hchild (hd.child hs)]
  cases d
  cases e
  obtain ⟨-, horder, -, hunique, hname, hpriority⟩ := hroot
  cases horder trivial
  cases hnested
  cases hunique
  cases hname
  cases hpriority
  rfl
termination_by sizeOf d
decreasing_by exact sizeOf_child_lt hs

/-! ## Merging in another order -/

/-- Where all three have a part at `path`, that of `c` has no value for a property that is falsy in that of `b`. -/
def SteadyAt (path : List String) (a b c : Description) : Prop :=
  ∀ a' b' c', a.nestedAt? path = some a' → b.nestedAt? path = some b' → c.nestedAt? path = some c' →
    ∀ p, ¬ Revives c' b' p

theorem Alike.merge_merge (hb : b.Distinct) (hc : c.Distinct) (h : ∀ path, ordered path → SteadyAt path a b c) :
    Alike ordered (Description.merge a (Description.merge b c)) (Description.merge (Description.merge a b) c) := by
  intro path
  rw [nestedAt?_merge (hb.merge hc), nestedAt?_merge hc, nestedAt?_merge hc, nestedAt?_merge hb]
  cases hz : c.nestedAt? path with
  | none => exact rel_refl _
  | some z =>
    cases hy : b.nestedAt? path with
    | none => exact rel_refl _
    | some y =>
      cases hx : a.nestedAt? path with
      | none => exact rel_refl _
      | some x =>
        refine .some (Level.merge_merge (hb path y hy) (hc path z hz) fun hpath => ?_)
        exact h path hpath x y z hx hy hz

theorem nestedAt?_empty (hpath : path ≠ []) : nestedAt? {} path = none := by
  cases path with
  | nil => exact absurd rfl hpath
  | cons s path => rfl

theorem SteadyAt.merge_left (ha : SteadyAt path a b c) (hd : SteadyAt path d b c) (hdistinct : d.Distinct) :
    SteadyAt path (merge a d) b c := by
  intro m' b' c' hm hb hc
  rw [nestedAt?_merge hdistinct] at hm
  cases hd' : d.nestedAt? path with
  | some d' => exact hd d' b' c' hd' hb hc
  | none =>
    rw [hd'] at hm
    exact ha m' b' c' hm hb hc

/-- What is falsy after merging was so before. -/
theorem SteadyAt.merge_right (hb : SteadyAt path a b c) (hd : SteadyAt path a d c) (hdistinct : d.Distinct) :
    SteadyAt path a (merge b d) c := by
  intro a' m' c' ha hm hc p
  rw [nestedAt?_merge hdistinct] at hm
  cases hd' : d.nestedAt? path with
  | none =>
    rw [hd'] at hm
    exact hb a' m' c' ha hm hc p
  | some d' =>
    rw [hd'] at hm
    cases hb' : b.nestedAt? path with
    | none =>
      rw [hb'] at hm
      exact hd a' m' c' ha (hd'.trans hm) hc p
    | some b' =>
      rw [hb'] at hm
      obtain rfl := Option.some.inj hm
      rintro ⟨v, w, hv, hfalsy, hw, hvalue⟩
      exact hb a' b' c' ha hb' hc p ⟨v, w, get?_of_falsy (hdistinct path d' hd') hv hfalsy, hfalsy, hw, hvalue⟩

/-- All declarations have a value. -/
def Truthy (d : Description) : Prop := ∀ p v, d.get? p = some v → v.isFalsy = false

theorem truthy_empty : Truthy {} := nofun

theorem Truthy.merge (h : d.Truthy) (hc : c.Distinct) : (merge d c).Truthy := by
  intro p v hv
  refine Bool.eq_false_iff.mpr fun hfalsy => ?_
  rw [h p v (get?_of_falsy (hc [] c rfl) hv hfalsy)] at hfalsy
  cases hfalsy

theorem Truthy.steadyAt (h : b.Truthy) : SteadyAt [] a b c := by
  rintro a' b' c' - ⟨⟩ - p ⟨v, w, hv, hfalsy, -, -⟩
  rw [h p v hv] at hfalsy
  cases hfalsy

/-! ## Groups -/

theorem merge_empty (d : Description) : merge d {} = d := by
  cases d
  rfl

theorem distinct_foldl_merge {ds : List Description} (h : d.Distinct) (hds : ∀ c ∈ ds, c.Distinct) :
    (ds.foldl Description.merge d).Distinct :=
  List.foldlRecOn ds Description.merge h fun _ hm c hc => hm.merge (hds c hc)

/-- One group, which is merged into `m` first. -/
theorem alike_merge_foldl {ds : List Description} (hm : m.Distinct) (htruthy : m.Truthy) (hds : ∀ c ∈ ds, c.Distinct)
    (hfirst : ∀ path, ordered path → path ≠ [] → ∀ c ∈ ds, SteadyAt path d m c)
    (hpairs : ∀ path, ordered path → path ≠ [] → ds.Pairwise (SteadyAt path d)) :
    Alike ordered (merge d (ds.foldl Description.merge m)) (ds.foldl Description.merge (merge d m)) := by
  induction ds generalizing m with
  | nil => exact .refl ordered _
  | cons c rest ih =>
    obtain ⟨hc, hrest⟩ := List.forall_mem_cons.mp hds
    have hsteady : ∀ path, ordered path → SteadyAt path d m c := by
      intro path hpath
      cases path with
      | nil => exact htruthy.steadyAt
      | cons s path => exact hfirst _ hpath nofun c List.mem_cons_self
    have hnext : ∀ path, ordered path → path ≠ [] → ∀ c' ∈ rest, SteadyAt path d (merge m c) c' := by
      intro path hpath hne c' hc'
      refine (hfirst path hpath hne c' (List.mem_cons_of_mem _ hc')).merge_right ?_ hc
      exact (List.pairwise_cons.mp (hpairs path hpath hne)).1 c' hc'
    have htail := ih (hm.merge hc) (htruthy.merge hc) hrest hnext fun path hpath hne =>
      (List.pairwise_cons.mp (hpairs path hpath hne)).2
    exact htail.trans ((Alike.merge_merge hm hc hsteady).foldl_merge hrest)

theorem alike_groups {groups : List (List Description)} (h : Alike ordered x y)
    (hdistinct : ∀ g ∈ groups, ∀ d ∈ g, d.Distinct)
    (hfirst : ∀ path, ordered path → path ≠ [] → ∀ g ∈ groups, g.Pairwise (SteadyAt path y))
    (hpairs : ∀ path, ordered path → path ≠ [] →
      groups.Pairwise fun before g => ∀ a ∈ before, g.Pairwise (SteadyAt path a)) :
    Alike ordered ((groups.map fun g => g.foldl merge {}).foldl merge x) (groups.flatten.foldl merge y) := by
  induction groups generalizing x y with
  | nil => exact h
  | cons g rest ih =>
    obtain ⟨hg, hrest⟩ := List.forall_mem_cons.mp hdistinct
    rw [List.map_cons, List.foldl_cons, List.flatten_cons, List.foldl_append]
    have hgroup : Alike ordered (merge x (g.foldl merge {})) (g.foldl merge y) := by
      have hempty : ∀ path, ordered path → path ≠ [] → ∀ c ∈ g, SteadyAt path y {} c := by
        intro path _ hne c _ a' b' c' _ hb
        rw [nestedAt?_empty hne] at hb
        cases hb
      have hone := alike_merge_foldl distinct_empty truthy_empty hg hempty fun path hpath hne =>
        hfirst path hpath hne g List.mem_cons_self
      rw [merge_empty] at hone
      exact (h.merge (distinct_foldl_merge distinct_empty hg)).trans hone
    refine ih hgroup hrest ?_ fun path hpath hne => (List.pairwise_cons.mp (hpairs path hpath hne)).2
    intro path hpath hne g' hg'
    refine List.foldlRecOn (motive := fun m => g'.Pairwise (SteadyAt path m)) g Description.merge
      (hfirst path hpath hne g' (List.mem_cons_of_mem _ hg')) fun m hm a ha => ?_
    have hpair := (List.pairwise_cons.mp (hpairs path hpath hne)).1 g' hg' a ha
    exact (hm.and hpair).imp fun ⟨h, h'⟩ => h.merge_left h' (hg a ha)

theorem mem_present {ds : List (Option Description)} : d ∈ ds.filterMap id ↔ some d ∈ ds := by
  simp

theorem extend_map_extend (groups : List (List (Option Description))) :
    extend (groups.map fun g => some (extend g)) =
      ((groups.map (List.filterMap id)).map fun g => g.foldl merge {}).foldl merge {} := by
  have hpresent : (groups.map fun g => some (extend g)).filterMap id = groups.map extend := by
    simp [List.filterMap_map]
  rw [extend, hpresent, List.map_map]
  rfl

theorem distinct_extend {ds : List (Option Description)} (h : ∀ d, some d ∈ ds → d.Distinct) : (extend ds).Distinct :=
  distinct_foldl_merge distinct_empty fun d hd => h d (mem_present.mp hd)

theorem alike_extend {groups : List (List (Option Description))}
    (hdistinct : ∀ g ∈ groups, ∀ d, some d ∈ g → d.Distinct)
    (hpairs : ∀ path, ordered path → path ≠ [] →
      groups.Pairwise fun before g => ∀ a, some a ∈ before → (g.filterMap id).Pairwise (SteadyAt path a)) :
    Alike ordered (extend (groups.map fun g => some (extend g))) (extend groups.flatten) := by
  rw [extend_map_extend, extend, List.filterMap_flatten]
  refine alike_groups (.refl ordered {}) ?_ ?_ fun path hpath hne => ?_
  · intro present hpresent d hd
    obtain ⟨g, hg, rfl⟩ := List.mem_map.mp hpresent
    exact hdistinct g hg d (mem_present.mp hd)
  · intro path _ hne g _
    refine List.pairwise_of_forall fun b c a' b' c' ha => ?_
    rw [nestedAt?_empty hne] at ha
    cases ha
  · refine List.pairwise_map.mpr ((hpairs path hpath hne).imp fun h a ha => ?_)
    exact h a (mem_present.mp ha)

/-- Below the root, wherever `a` has a part as well, `c` has no value for a property that is falsy in `b`. -/
def Steady (a b c : Description) : Prop := ∀ path, path ≠ [] → SteadyAt path a b c

/-- Merging by groups. The values, selectors and directives are those of all descriptions merged in turn, at
every level, and the declarations of the root are in the same order. The order is the same at every level if
no description of a group takes the place of a falsy value of an earlier one of its group, under selectors that
a group in front has as well. -/
theorem extend_groups (groups : List (List (Option Description)))
    (hdistinct : ∀ g ∈ groups, ∀ d, some d ∈ g → d.Distinct) :
    Alike (· = []) (extend (groups.map fun g => some (extend g))) (extend groups.flatten) ∧
    (groups.Pairwise (fun before g => ∀ a, some a ∈ before → (g.filterMap id).Pairwise (Steady a)) →
      extend (groups.map fun g => some (extend g)) = extend groups.flatten) := by
  refine ⟨alike_extend hdistinct fun path hroot hne => absurd hroot hne, fun hsteady => ?_⟩
  have halike : Alike (fun _ => True) (extend (groups.map fun g => some (extend g))) (extend groups.flatten) :=
    alike_extend hdistinct fun path _ hne => hsteady.imp fun h a ha => (h a ha).imp fun h => h path hne
  refine eq_of_alike _ _ halike (distinct_extend fun d hd => ?_)
  obtain ⟨g, hg, hd⟩ := List.mem_map.mp hd
  obtain rfl := Option.some.inj hd
  exact distinct_extend (hdistinct g hg)

/-- Declarations of one selector. -/
def hover (declarations : List (String × Value)) : Description := wrap { declarations } "&:hover"

def plainHover : Description := hover []
def blueHover : Description := hover [("backgroundColor", .text ""), ("background-color", .text "blue")]
def redHover : Description := hover [("backgroundColor", .text "red")]

/-- The first property of `blueHover` is falsy and has a place, which `redHover` takes when both are merged
first. After `plainHover` it has none, so that `redHover` comes last. -/
theorem groups_change_order :
    (extend ([[some plainHover], [some blueHover, some redHover]].map fun g => some (extend g)) ==
      extend [[some plainHover], [some blueHover, some redHover]].flatten) = false := by
  decide

theorem nestedAt?_wrap {t : String} (h : (d.wrap s).nestedAt? (t :: path) = some e) : d.nestedAt? path = some e := by
  obtain ⟨child, hchild, he⟩ := Option.bind_eq_some_iff.mp h
  have hmem : (t, child) ∈ [(s, d)] := Keyed.mem_of_lookup hchild
  obtain ⟨-, rfl⟩ := Prod.mk.inj (List.mem_singleton.mp hmem)
  exact he

theorem steady_wrap (hb : b.nested = []) (h : ∀ p, ¬ Revives c b p) : Steady a (b.wrap s) (c.wrap s) := by
  intro path hpath a' b' c' _ hb' hc'
  cases path with
  | nil => exact absurd rfl hpath
  | cons t path =>
    replace hb' := nestedAt?_wrap hb'
    replace hc' := nestedAt?_wrap hc'
    cases path with
    | nil =>
      obtain rfl := Option.some.inj hb'
      obtain rfl := Option.some.inj hc'
      exact h
    | cons u path =>
      rw [nestedAt?, getNested?, hb] at hb'
      cases hb'

theorem distinct_hover {declarations : List (String × Value)} (h : (Keyed.keys declarations).Nodup) :
    (hover declarations).Distinct :=
  distinct_empty.nest _ (distinct_iff.mpr ⟨⟨h, List.nodup_nil⟩, nofun⟩)

/-- The last description declares a property that the one before it has a value for. -/
def redOverBlue : Description := hover [("background-color", .text "red")]

def steadyGroups : List (List (Option Description)) :=
  [[some plainHover], [some blueHover, none, some redOverBlue]]

theorem extend_groups_hover :
    (∀ g ∈ steadyGroups, ∀ d, some d ∈ g → d.Distinct) ∧
    steadyGroups.Pairwise (fun before g => ∀ a, some a ∈ before → (g.filterMap id).Pairwise (Steady a)) ∧
    extend (steadyGroups.map fun g => some (extend g)) = extend steadyGroups.flatten := by
  have hdistinct : ∀ g ∈ steadyGroups, ∀ d, some d ∈ g → d.Distinct := by
    intro g hg d hd
    have hall : d ∈ [plainHover, blueHover, redOverBlue] := by
      have hflat := List.mem_flatten_of_mem hg hd
      simpa [steadyGroups] using hflat
    simp only [List.mem_cons, List.not_mem_nil, or_false] at hall
    rcases hall with rfl | rfl | rfl <;> exact distinct_hover (by decide)
  have hsteady : ∀ a, Steady a blueHover redOverBlue := by
    refine fun a => steady_wrap rfl ?_
    rintro p ⟨v, w, hv, hfalsy, hw, -⟩
    have hp : (p, w) ∈ [("background-color", Value.text "red")] := Keyed.mem_of_lookup hw
    obtain ⟨rfl, -⟩ := Prod.mk.inj (List.mem_singleton.mp hp)
    cases hv
    cases hfalsy
  have hpairs : steadyGroups.Pairwise fun before g =>
      ∀ a, some a ∈ before → (g.filterMap id).Pairwise (Steady a) := by
    refine List.pairwise_pair.mpr fun a _ => ?_
    exact List.pairwise_pair.mpr (hsteady a)
  exact ⟨hdistinct, hpairs, (extend_groups steadyGroups hdistinct).2 hpairs⟩

end StyleEngine.Description
