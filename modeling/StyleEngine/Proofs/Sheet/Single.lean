import StyleEngine.Proofs.Sheet.Failure
import StyleEngine.Proofs.Style.Overlay
import StyleEngine.Proofs.Style.Spelling

/-!
# A description on its own

A sheet extends what it is given before it registers it, also when it is given one description. That drops falsy
values and directives at the root and nothing below it (`merge_empty_left`), and normalizing drops the same at every
level (`normalize_pruned`). So extending a description on its own, with absent and empty ones around it, cannot be
told from not extending it (`single_style_as_registered`).
-/

namespace StyleEngine

namespace Keyed

variable {α : Type} {entries added : List (String × α)}

/-- Pairs under new keys are stored as they come. -/
theorem putAll_of_disjoint (h : (keys (entries ++ added)).Nodup) : putAll entries added = entries ++ added := by
  induction added generalizing entries with
  | nil => exact (List.append_nil entries).symm
  | cons first rest ih =>
    obtain ⟨k, v⟩ := first
    have hassoc : entries ++ (k, v) :: rest = (entries ++ [(k, v)]) ++ rest := by simp
    have hk : k ∉ keys entries := fun hmem => by
      rw [keys, List.map_append] at h
      exact (List.nodup_append.mp h).2.2 k hmem k List.mem_cons_self rfl
    show putAll (put k v entries) rest = _
    rw [put_of_notMem hk, ih (hassoc ▸ h), hassoc]

theorem putAll_nil_left (h : (keys added).Nodup) : putAll [] added = added := putAll_of_disjoint h

end Keyed

namespace Description

variable {d : Description}

/-- The description without the values and directives that say nothing. What is below the root stays. -/
def pruned (d : Description) : Description where
  declarations := written d.declarations
  nested := d.nested
  unique? := d.unique?.filter id
  debugName? := d.debugName?.filter (!·.isEmpty)
  priority? := d.priority?.filter (0 < ·)

/-! ## Merging with nothing -/

theorem merge_empty_left (h : d.DistinctKeys) : merge {} d = d.pruned := by
  have hdeclarations : overlay [] d.declarations = written d.declarations :=
    Keyed.putAll_nil_left ((Keyed.keys_filter_sublist _ _).nodup h.properties)
  have hnested : mergeNested [] d.nested = d.nested := by
    have hnew : (d.nested.map fun e => (e.1, mergeOnto (List.lookup e.1 []) e.2)) = d.nested := by
      simp [mergeOnto]
    rw [mergeNested_eq_putAll h.selectors, hnew, Keyed.putAll_nil_left h.selectors]
  obtain ⟨declarations, nested, unique?, debugName?, priority?⟩ := d
  rw [merge, pruned, hdeclarations, hnested, Option.or_none, Option.or_none, Option.or_none]

theorem merge_empty_right (d : Description) : merge d {} = d := by
  obtain ⟨declarations, nested, unique?, debugName?, priority?⟩ := d
  rw [merge, mergeNested]
  rfl

/-- Descriptions that are absent or empty add nothing. -/
theorem foldl_merge_of_empty {ds : List (Option Description)} (h : ∀ x ∈ ds, x = none ∨ x = some {})
    (d : Description) : (ds.filterMap id).foldl merge d = d := by
  induction ds with
  | nil => rfl
  | cons x rest ih =>
    have hrest := ih fun y hy => h y (List.mem_cons_of_mem _ hy)
    rcases h x List.mem_cons_self with rfl | rfl
    · exact hrest
    · show (rest.filterMap id).foldl merge (merge d {}) = d
      rw [merge_empty_right, hrest]

/-- Only the description that is present counts. -/
theorem extend_single {before after : List (Option Description)} (hbefore : ∀ x ∈ before, x = none ∨ x = some {})
    (hafter : ∀ x ∈ after, x = none ∨ x = some {}) (h : d.DistinctKeys) :
    extend (before ++ some d :: after) = d.pruned := by
  rw [extend, List.filterMap_append, List.foldl_append, foldl_merge_of_empty hbefore]
  show (after.filterMap id).foldl merge (merge {} d) = _
  rw [foldl_merge_of_empty hafter, merge_empty_left h]

/-! ## Normalizing -/

theorem renderDeclarations_written (entries : List (String × Value)) :
    renderDeclarations (written entries) = renderDeclarations entries := by
  induction entries with
  | nil => rfl
  | cons e rest ih =>
    obtain ⟨name, value⟩ := e
    cases hfalsy : value.isFalsy with
    | true =>
      have hdropped : written ((name, value) :: rest) = written rest :=
        List.filter_cons_of_neg (by simp [hfalsy])
      rw [hdropped, ih, renderDeclarations, renderEntry_of_falsy hfalsy]
      cases renderDeclarations rest <;> rfl
    | false =>
      have hkept : written ((name, value) :: rest) = (name, value) :: written rest :=
        List.filter_cons_of_pos (by simp [hfalsy])
      rw [hkept, renderDeclarations, renderDeclarations, ih]

/-- What extending drops at the root, normalizing drops itself. -/
theorem normalize_pruned (d : Description) (debug : Bool) : d.pruned.normalize debug = d.normalize debug := by
  obtain ⟨declarations, nested, unique?, debugName?, priority?⟩ := d
  have hunique : (unique?.filter id).getD false = unique?.getD false := by
    cases unique? with
    | none => rfl
    | some unique => cases unique <;> rfl
  have hdebugName : (debugName?.filter (!·.isEmpty)).filter (!·.isEmpty) = debugName?.filter (!·.isEmpty) := by
    rw [Option.filter_filter]
    simp
  have hpriority : (priority?.filter (0 < ·)).getD 0 = priority?.getD 0 := by
    cases priority? with
    | none => rfl
    | some priority => cases priority <;> rfl
  rw [normalize, normalize, pruned, normalizeAt, normalizeAt, renderDeclarations_written, hunique, hdebugName, hpriority]

end Description

namespace Registry

/-- Registering looks at the normal style only. -/
theorem registerStyle_congr {d e : Description} {debug : Bool} (h : d.normalize debug = e.normalize debug)
    (r : Registry) :
    r.registerStyle d debug = r.registerStyle e debug ∧ r.step (.style d debug) = r.step (.style e debug) := by
  have hregister : r.registerStyle d debug = r.registerStyle e debug := by rw [registerStyle_eq, registerStyle_eq, h]
  refine ⟨hregister, ?_⟩
  rw [step, step, apply, apply, hregister]

end Registry

namespace World

open Description

variable {w : World} {handle id : Nat} {s : Sheet} {d : Description}

/-- A style answers with its class, and leaves its sheet the registry that registering leaves. -/
theorem call_style (hh : w.sheetOf? handle = some id) (hs : w.sheets[id]? = some s) (ds : List (Option Description)) :
    (w.call handle (.style ds)).1 = (s.registry.registerStyle (extend ds) (w.debugMode s)).map (fun x => .name x.1) ∧
      ((w.call handle (.style ds)).2.sheets[id]?).map Sheet.registry =
        some (s.registry.step (.style (extend ds) (w.debugMode s))) := by
  have hcall : w.call handle (.style ds) = w.style id s ds := by simp only [call, hh, hs, perform]
  rw [hcall, style_eq_apply hs (isAlive_of_sheetOf? hh), apply_sheet hs, Sheet.styleEffect]
  have hdebug : s.debugMode w.debugDefault = w.debugMode s := rfl
  rw [hdebug, Registry.step, Registry.apply]
  cases s.registry.registerStyle (extend ds) (w.debugMode s) with
  | error e => exact ⟨rfl, rfl⟩
  | ok result => exact ⟨rfl, congrArg some (Sheet.registry_updateEffect _)⟩

/-- One description, with any absent and empty ones around it, is extended to one with the same normal style or the
same error. So a sheet that is given it answers what its registry answers when the description is registered as it
is, and has that registry afterwards. Only the keys of the description itself need to be distinct. -/
theorem single_style_as_registered (hd : d.DistinctKeys) {before after : List (Option Description)}
    (hbefore : ∀ x ∈ before, x = none ∨ x = some {}) (hafter : ∀ x ∈ after, x = none ∨ x = some {}) :
    (∀ debug, (extend (before ++ some d :: after)).normalize debug = d.normalize debug) ∧
    ∀ (w : World) handle id s, w.sheetOf? handle = some id → w.sheets[id]? = some s →
      let done := w.call handle (.style (before ++ some d :: after))
      done.1 = (s.registry.registerStyle d (w.debugMode s)).map (fun x => .name x.1) ∧
      (done.2.sheets[id]?).map Sheet.registry = some (s.registry.step (.style d (w.debugMode s))) := by
  have hnormalize : ∀ debug, (extend (before ++ some d :: after)).normalize debug = d.normalize debug := by
    intro debug
    rw [extend_single hbefore hafter hd, normalize_pruned]
  refine ⟨hnormalize, fun w handle id s hh hs => ?_⟩
  have hcall := call_style hh hs (before ++ some d :: after)
  obtain ⟨hregister, hstep⟩ := Registry.registerStyle_congr (hnormalize (w.debugMode s)) s.registry
  rwa [hregister, hstep] at hcall

/-- Falsy values and directives at the root and below, and a value below that is refused. -/
def muted : Description :=
  { declarations := [("color", .text ""), ("margin", .text "0"), ("width", .null)]
    nested := [("&:hover", { declarations := [("color", .null)], unique? := some false }), ("i", refused)]
    unique? := some false, debugName? := some "", priority? := some 0 }

theorem single_style_as_registered_muted :
    (extend [none, some {}, some muted, none]).normalize true = .error (.invalidValue "length" "negative") ∧
    (busyWorld.call 0 (.style [none, some {}, some muted, none])).1 = .error (.invalidValue "length" "negative") ∧
    (busyWorld.call 0 (.style [some {}, some { muted with nested := [] }])).1 =
      (Registry.registerStyle {} { muted with nested := [] } true).map (fun x => .name x.1) := by
  have hkeys : muted.DistinctKeys := ⟨by decide, by decide⟩
  have hflatKeys : DistinctKeys { muted with nested := [] } := ⟨by decide, by decide⟩
  have hempty : ∀ x ∈ [some ({} : Description)], x = none ∨ x = some {} := by simp
  have hunits : ∀ x ∈ [none, some ({} : Description)], x = none ∨ x = some {} := by simp
  have habsent : ∀ x ∈ [(none : Option Description)], x = none ∨ x = some {} := by simp
  have hnothing : ∀ x ∈ ([] : List (Option Description)), x = none ∨ x = some {} := by simp
  obtain ⟨hnormal, hcall⟩ := single_style_as_registered hkeys hunits habsent
  have hplain := (single_style_as_registered hflatKeys hempty hnothing).2 busyWorld 0 0 _ rfl rfl
  exact ⟨hnormal true, (hcall busyWorld 0 0 _ rfl rfl).1, hplain.1⟩

end World

end StyleEngine
