import StyleEngine.Proofs.Registry.Kept
import StyleEngine.Proofs.Sheet.Content

/-!
# Failed operations

A sheet keeps the registry that a registration leaves, also when it fails. Every registration compiles before it
stores, so one that fails leaves the world as it was, wherever in its descriptions it fails (`eq_of_call_error`).
Font faces come all or none, and if all come it is as if they had come one by one (`registerFaces_eq_foldlM`).
Named styles are registered one after the other, so those in front of the one that fails stay
(`exists_failing_style`). The main statement is `failed_calls_change_nothing`.
-/

namespace StyleEngine

namespace Registry

/-- The first face, then the others. -/
theorem registerFaces_cons (r : Registry) (d : Description) (ds : List Description) :
    r.registerFaces (d :: ds) = (r.registerFaces [d]).bind fun r => r.registerFaces ds := by
  simp only [registerFaces_eq, compileFaces]
  cases flatDeclarations .fontFace d with
  | error e => rfl
  | ok own =>
    cases compileFaces ds with
    | error e => rfl
    | ok faces =>
      -- a face without declarations is left out on both sides
      cases own <;> rfl

/-- A batch of faces is the faces one by one, until one fails. -/
theorem registerFaces_eq_foldlM (ds : List Description) (r : Registry) :
    r.registerFaces ds = ds.foldlM (fun r d => r.registerFaces [d]) r := by
  induction ds generalizing r with
  | nil => rfl
  | cons d rest ih =>
    rw [registerFaces_cons, List.foldlM_cons]
    exact congrArg _ (funext ih)

end Registry

theorem Sheet.registry_updateEffect (s : Sheet) : s.updateEffect.sheet.registry = s.registry := by
  have hs : s.Holds { registry := s.registry, raws := [s.raw] } := ⟨rfl, by simp [String.join]⟩
  exact hs.updateEffect.registry

namespace World

variable {w w' : World} {handle id : Nat} {s : Sheet} {e : StyleError}

/-! ## Single operations -/

/-- The registry that a failed registration leaves is the one it found. -/
theorem eq_of_register_error (hs : w.sheets[id]? = some s) {work : Registry.Work Answer} (hw : work.Atomic)
    (h : w.register id (s.registry.attempt work) = (.error e, w')) : w' = w := by
  rcases hattempt : s.registry.attempt work with ⟨e' | answer, registry⟩
  · have hkept : registry = s.registry := hw _ _ _ hattempt
    rw [hattempt, hkept] at h
    exact (Prod.mk.inj h).2.symm.trans (modifySheet_registry hs)
  · rw [hattempt] at h
    cases h

theorem eq_of_call_error {c : Call} (hc : ∀ named, c ≠ .stylesheet named)
    (h : w.call handle c = (.error e, w')) : w' = w := by
  unfold call at h
  split at h
  · cases h
  split at h
  · cases h
  · next s hs =>
    cases c with
    | style ds => exact eq_of_register_error hs ((Registry.atomic_storeStyle _ _).map _) h
    | cssRule selector ds => exact eq_of_register_error hs ((Registry.atomic_storeRule _ _).map _) h
    | keyframes k => exact eq_of_register_error hs ((Registry.atomic_storeKeyframes _ _).map _) h
    | fontFace ds => exact eq_of_register_error hs ((Registry.atomic_storeFaces _).map _) h
    | stylesheet named => exact absurd rfl (hc named)
    | setTarget | forceRender | reinit => cases h
    | cssRaw css =>
      simp only [perform] at h
      split at h <;> cases h

/-! ## Named styles -/

/-- Named styles, registered one by one with their names as debug names. -/
def styleCalls (handle : Nat) (named : List (String × Description)) : List Step :=
  named.map fun (name, d) => .call handle (.style [some (d.withDebugName name)])

/-- A style fails and does nothing, or has a name. -/
theorem style_cases (hs : w.sheets[id]? = some s) (ds : List (Option Description)) :
    (∃ e, w.style id s ds = (.error e, w)) ∨
    ∃ name w', w.style id s ds = (.ok (.name name), w') ∧ w'.handles = w.handles := by
  rw [style_eq_record hs]
  cases s.registry.registerStyle (Description.extend ds) (w.debugMode s) with
  | error e => exact .inl ⟨e, rfl⟩
  | ok r => exact .inr ⟨r.1, _, rfl, register_handles (.ok (.name r.1), r.2)⟩

/-- When a named style fails, those in front of it were registered, and that is all that happened. -/
theorem exists_failing_style {named : List (String × Description)} {classes : List (String × String)}
    (hh : w.sheetOf? handle = some id) (h : w.stylesheet id classes named = (.error e, w')) :
    ∃ before name d after, named = before ++ (name, d) :: after ∧
      (w.run (styleCalls handle before)).2 = w' ∧
      (∀ a ∈ (w.run (styleCalls handle before)).1, ∃ c, a = .ok (.name c)) ∧
      w'.call handle (.style [some (d.withDebugName name)]) = (.error e, w') := by
  induction named generalizing w classes with
  | nil => cases h
  | cons entry rest ih =>
    obtain ⟨name, d⟩ := entry
    unfold stylesheet at h
    cases hs : w.sheets[id]? with
    | none => simp only [hs] at h; cases h
    | some s =>
      have hcall : w.call handle (.style [some (d.withDebugName name)]) =
          w.style id s [some (d.withDebugName name)] := by
        simp only [call, hh, hs]
        rfl
      rcases style_cases hs [some (d.withDebugName name)] with ⟨e', he⟩ | ⟨c, w₁, he, hhandles⟩
      · simp only [hs, he] at h
        obtain ⟨herror, rfl⟩ := Prod.mk.inj h
        obtain rfl := Except.error.inj herror
        exact ⟨[], name, d, rest, rfl, rfl, fun _ ha => absurd ha List.not_mem_nil, hcall.trans he⟩
      · simp only [hs, he] at h
        have hh₁ : w₁.sheetOf? handle = some id := by rw [sheetOf?, hhandles]; exact hh
        obtain ⟨before, name', d', after, rfl, hworld, hanswers, hfail⟩ := ih hh₁ h
        have hrun : w.run (styleCalls handle ((name, d) :: before)) =
            (.ok (.name c) :: (w₁.run (styleCalls handle before)).1, (w₁.run (styleCalls handle before)).2) := by
          rw [styleCalls, List.map_cons, run, step, hcall, he]
          rfl
        refine ⟨(name, d) :: before, name', d', after, rfl, ?_, fun a ha => ?_, hfail⟩
        · rw [hrun]
          exact hworld
        · rw [hrun] at ha
          rcases List.mem_cons.mp ha with rfl | ha
          · exact ⟨c, rfl⟩
          · exact hanswers a ha

/-! ## Font faces -/

/-- Font faces, registered one by one. -/
def faceCalls (handle : Nat) (ds : List Description) : List Step :=
  ds.map fun d => .call handle (.fontFace [d])

def registries (w : World) : List Registry := w.sheets.map Sheet.registry

theorem registries_apply (id : Nat) (e : Effect) :
    (w.apply id e).registries = w.registries.set id e.sheet.registry := by
  rw [registries, registries, apply, List.map_set]

theorem call_fontFace {ds : List Description} {r : Registry} (hh : w.sheetOf? handle = some id)
    (hs : w.sheets[id]? = some s) (hr : s.registry.registerFaces ds = .ok r) :
    w.call handle (.fontFace ds) = (.ok .done, w.apply id { s with registry := r }.updateEffect) := by
  rw [call_eq_apply hh hs, Sheet.effect, hr]
  rfl

/-- Faces that can be registered together can be registered one by one, with the same registry in the end. -/
theorem registries_faceCalls {ds : List Description} {r : Registry} (hh : w.sheetOf? handle = some id)
    (hs : w.sheets[id]? = some s) (hr : s.registry.registerFaces ds = .ok r) :
    (w.run (faceCalls handle ds)).2.registries = w.registries.set id r := by
  induction ds generalizing w s with
  | nil =>
    obtain rfl : s.registry = r := Except.ok.inj hr
    obtain ⟨hid, rfl⟩ := List.getElem?_eq_some_iff.mp hs
    show w.registries = _
    rw [registries, ← List.map_set, List.set_getElem_self]
  | cons d rest ih =>
    rw [Registry.registerFaces_cons] at hr
    cases hd : s.registry.registerFaces [d] with
    | error e => rw [hd] at hr; cases hr
    | ok r₁ =>
      rw [hd] at hr
      have hstored := Sheet.registry_updateEffect { s with registry := r₁ }
      have hrest := ih (w := w.apply id { s with registry := r₁ }.updateEffect) hh (apply_sheet hs _)
        (by rw [hstored]; exact hr)
      have hrun : (w.run (faceCalls handle (d :: rest))).2 =
          ((w.apply id { s with registry := r₁ }.updateEffect).run (faceCalls handle rest)).2 := by
        rw [faceCalls, List.map_cons, run, step, call_fontFace hh hs hd]
        rfl
      rw [hrun, hrest, registries_apply, hstored, List.set_set]

theorem run_faceCalls_of_none (h : (w.sheetOf? handle).bind (w.sheets[·]?) = none) (ds : List Description) :
    (w.run (faceCalls handle ds)).2 = w := by
  induction ds with
  | nil => rfl
  | cons d rest ih =>
    rw [faceCalls, List.map_cons, run, step, call_of_none h]
    exact ih

/-- A batch of faces that succeeds leaves the registries that the same faces leave one by one. -/
theorem registries_of_fontFace {ds : List Description} {a : Answer}
    (h : w.call handle (.fontFace ds) = (.ok a, w')) :
    w'.registries = (w.run (faceCalls handle ds)).2.registries := by
  cases hw : (w.sheetOf? handle).bind (w.sheets[·]?) with
  | none =>
    rw [call_of_none hw] at h
    rw [run_faceCalls_of_none hw, (Prod.mk.inj h).2]
  | some s =>
    obtain ⟨id, hh, hs⟩ := Option.bind_eq_some_iff.mp hw
    cases hr : s.registry.registerFaces ds with
    | error e =>
      rw [call_eq_apply hh hs, Sheet.effect, hr] at h
      cases h
    | ok r =>
      rw [call_fontFace hh hs hr] at h
      rw [registries_faceCalls hh hs hr, ← (Prod.mk.inj h).2, registries_apply, Sheet.registry_updateEffect]

/-- Faces of which one is refused are refused together, with the error of the first such face. -/
theorem call_fontFace_error {ds : List Description} (hh : w.sheetOf? handle = some id)
    (hs : w.sheets[id]? = some s) (he : ds.foldlM (fun r d => r.registerFaces [d]) s.registry = .error e) :
    w.call handle (.fontFace ds) = (.error e, w) := by
  rw [call_eq_apply hh hs, Sheet.effect, Registry.registerFaces_eq_foldlM, he]
  exact congrArg _ (apply_self hs)

/-- A call that fails leaves the world as it was. A batch of faces fails if one of them would, the last one or any
other, and if none does it leaves the registries that the faces leave one by one. When named styles fail, the
styles in front of the failing one were registered, and nothing else happened. -/
theorem failed_calls_change_nothing (w : World) (handle : Nat) :
    (∀ c e w', (∀ named, c ≠ .stylesheet named) → w.call handle c = (.error e, w') → w' = w) ∧
    (∀ ds id s e, w.sheetOf? handle = some id → w.sheets[id]? = some s →
      ds.foldlM (fun r d => r.registerFaces [d]) s.registry = .error e →
      w.call handle (.fontFace ds) = (.error e, w)) ∧
    (∀ ds a w', w.call handle (.fontFace ds) = (.ok a, w') →
      w'.registries = (w.run (faceCalls handle ds)).2.registries) ∧
    ∀ named e w', w.call handle (.stylesheet named) = (.error e, w') →
      ∃ before name d after, named = before ++ (name, d) :: after ∧
        (w.run (styleCalls handle before)).2 = w' ∧
        (∀ a ∈ (w.run (styleCalls handle before)).1, ∃ c, a = .ok (.name c)) ∧
        w'.call handle (.style [some (d.withDebugName name)]) = (.error e, w') := by
  refine ⟨fun c e w' hc h => eq_of_call_error hc h, fun ds id s e hh hs he => call_fontFace_error hh hs he,
    fun ds a w' h => registries_of_fontFace h, fun named e w' h => ?_⟩
  unfold call at h
  split at h
  · cases h
  · next id hh =>
    split at h
    · cases h
    · exact exists_failing_style hh h

/-- A value that refuses to be written. -/
def refused : Description := Description.set {} "width" (.custom "length" (.error (.invalidValue "length" "negative")))

/-- A sheet with a rule, a raw text and a flush under way. -/
def busyWorld : World :=
  ((start [{ autoTarget := true }] 1).run
    [.call 0 (.style [some Registry.red]), .call 0 (.setTarget 0), .call 0 (.cssRaw "a")]).2

theorem failed_calls_change_nothing_busyWorld :
    busyWorld.queue ≠ [] ∧
    busyWorld.call 0 (.cssRule "body" [some refused]) = (.error (.invalidValue "length" "negative"), busyWorld) ∧
    busyWorld.call 0 (.fontFace [Registry.red, Registry.red.wrap "&"]) =
      (.error (.unexpectedNesting .fontFace "&"), busyWorld) ∧
    (busyWorld.call 0 (.fontFace [Registry.red, Registry.red])).2.registries =
      (busyWorld.run (faceCalls 0 [Registry.red, Registry.red])).2.registries ∧
    ∃ w', busyWorld.call 0 (.stylesheet [("red", Registry.red), ("wide", refused)]) =
        (.error (.invalidValue "length" "negative"), w') ∧
      ∃ before name d after, [("red", Registry.red), ("wide", refused)] = before ++ (name, d) :: after ∧
        (busyWorld.run (styleCalls 0 before)).2 = w' ∧
        (∀ a ∈ (busyWorld.run (styleCalls 0 before)).1, ∃ c, a = .ok (.name c)) ∧
        w'.call 0 (.style [some (d.withDebugName name)]) = (.error (.invalidValue "length" "negative"), w') := by
  obtain ⟨hfail, hlater, hbatch, hnamed⟩ := failed_calls_change_nothing busyWorld 0
  have hrule : busyWorld.call 0 (.cssRule "body" [some refused]) =
      (.error (.invalidValue "length" "negative"), _) := rfl
  have hsame := hfail _ _ _ (fun _ he => by cases he) hrule
  refine ⟨by decide, ?_, hlater _ 0 _ _ rfl rfl rfl, hbatch _ .done _ rfl, _, rfl, hnamed _ _ _ rfl⟩
  rw [hrule, hsame]

end World

end StyleEngine
