import StyleEngine.World

/-!
# What a step on one sheet leaves alone

A sheet is read through its entry in the world, the target behind its outlet, and the tasks that are
queued for it. `Aside` says that a step on another sheet reaches none of them, as long as the targets
of the two are different (`Exclusive`).
-/

namespace StyleEngine

namespace Sheet

/-- The sheet after a text went to one of its outlets. -/
def received (s : Sheet) (text : String) : Outlet → Sheet
  | .own => { s with own := s.own.write text }
  | .attached _ => s

@[simp] theorem received_registry (s : Sheet) (text : String) (o : Outlet) :
    (s.received text o).registry = s.registry := by cases o <;> rfl
@[simp] theorem received_raw (s : Sheet) (text : String) (o : Outlet) :
    (s.received text o).raw = s.raw := by cases o <;> rfl
@[simp] theorem received_outlet (s : Sheet) (text : String) (o : Outlet) :
    (s.received text o).outlet? = s.outlet? := by cases o <;> rfl
@[simp] theorem received_tracker (s : Sheet) (text : String) (o : Outlet) :
    (s.received text o).tracker = s.tracker := by cases o <;> rfl
@[simp] theorem received_autoTarget (s : Sheet) (text : String) (o : Outlet) :
    (s.received text o).autoTarget = s.autoTarget := by cases o <;> rfl
@[simp] theorem received_delivery (s : Sheet) (text : String) (o : Outlet) :
    (s.received text o).delivery = s.delivery := by cases o <;> rfl
@[simp] theorem received_css (s : Sheet) (text : String) (o : Outlet) :
    (s.received text o).css = s.css := by cases o <;> rfl
@[simp] theorem received_version (s : Sheet) (text : String) (o : Outlet) :
    (s.received text o).version = s.version := by cases o <;> rfl

end Sheet

namespace World

variable {w w' : World} {id i : Nat} {s : Sheet} {text : String} {o : Outlet}

@[simp] theorem modifySheet_queue (f : Sheet → Sheet) : (w.modifySheet i f).queue = w.queue := rfl
@[simp] theorem modifySheet_handles (f : Sheet → Sheet) : (w.modifySheet i f).handles = w.handles := rfl
@[simp] theorem modifySheet_targets (f : Sheet → Sheet) : (w.modifySheet i f).targets = w.targets := rfl

@[simp] theorem writeOutlet_queue : (w.writeOutlet i text o).queue = w.queue := by cases o <;> rfl
@[simp] theorem writeOutlet_handles : (w.writeOutlet i text o).handles = w.handles := by cases o <;> rfl
@[simp] theorem writeOutlet_targets_length :
    (w.writeOutlet i text o).targets.length = w.targets.length := by
  cases o with
  | own => rfl
  | attached t => exact List.length_modify ..

theorem modifySheet_self {f : Sheet → Sheet} (h : w.sheets[id]? = some s) :
    (w.modifySheet id f).sheets[id]? = some (f s) := by
  simp [modifySheet, h]

theorem modifySheet_ne {f : Sheet → Sheet} (h : i ≠ id) :
    (w.modifySheet i f).sheets[id]? = w.sheets[id]? := by
  simp [modifySheet, h]

/-- A sheet of the changed world comes from a sheet of the old one. -/
theorem eq_of_modifySheet {f : Sheet → Sheet} {j : Nat} (h : (w.modifySheet i f).sheets[j]? = some s) :
    ∃ s₀, w.sheets[j]? = some s₀ ∧ s = if i = j then f s₀ else s₀ := by
  rw [modifySheet, List.getElem?_modify] at h
  obtain ⟨s₀, h₀, rfl⟩ := Option.map_eq_some_iff.mp h
  exact ⟨s₀, h₀, rfl⟩

theorem writeOutlet_self (h : w.sheets[id]? = some s) :
    (w.writeOutlet id text o).sheets[id]? = some (s.received text o) := by
  cases o with
  | own => exact modifySheet_self h
  | attached t => exact h

theorem writeOutlet_ne (h : i ≠ id) : (w.writeOutlet i text o).sheets[id]? = w.sheets[id]? := by
  cases o with
  | own => exact modifySheet_ne h
  | attached t => rfl

theorem writeOutlet_targets {t : Nat} (h : o ≠ .attached t) :
    (w.writeOutlet i text o).targets[t]? = w.targets[t]? := by
  cases o with
  | own => rfl
  | attached u =>
    have hu : u ≠ t := fun e => h (e ▸ rfl)
    simp [writeOutlet, writeTarget, hu]

/-- What is written is what the outlet shows. -/
theorem currentText?_writeOutlet (ho : s.outlet? = some o)
    (hr : ∀ t, o = .attached t → t < w.targets.length) :
    (w.writeOutlet id text o).currentText? (s.received text o) = some text := by
  unfold currentText?
  rw [Sheet.received_outlet, ho]
  cases o with
  | own => rfl
  | attached t =>
    simp [writeOutlet, writeTarget, List.getElem?_eq_getElem (hr t rfl), Target.write]

@[simp] theorem flush_handles : (w.flush i).handles = w.handles := by
  unfold flush
  split
  · rfl
  · split
    · rfl
    · simp

@[simp] theorem flush_queue : (w.flush i).queue = w.queue := by
  unfold flush
  split
  · rfl
  · split
    · rfl
    · simp

@[simp] theorem runTask_handles (t : FlushTask) : (w.runTask t).handles = w.handles := by
  unfold runTask
  split
  · simp
  · rfl

@[simp] theorem runTask_queue (t : FlushTask) : (w.runTask t).queue = w.queue := by
  unfold runTask
  split
  · simp
  · rfl

@[simp] theorem schedule_handles (t : FlushTask) (delivery : Delivery) :
    (w.schedule t delivery).handles = w.handles := by
  cases delivery with
  | immediate => exact runTask_handles t
  | onTick | unattended => rfl

@[simp] theorem styleUpdated_handles : (w.styleUpdated i).handles = w.handles := by
  unfold styleUpdated
  split
  · rfl
  · split
    · simp
    · rfl

@[simp] theorem register_handles (result : Except StyleError Answer × Registry) :
    (w.register i result).2.handles = w.handles := by
  rcases result with ⟨_ | answer, registry⟩
  · rfl
  · exact styleUpdated_handles

/-- The targets in `mine` exist, and they are attached to the sheet `id` and to no other. -/
structure Exclusive (mine : Nat → Prop) (id : Nat) (w : World) : Prop where
  present : ∀ t, mine t → t < w.targets.length
  attached : ∀ i s t, w.sheets[i]? = some s → s.outlet? = some (.attached t) → (mine t ↔ i = id)

variable {mine : Nat → Prop}

theorem Exclusive.modifySheet {f : Sheet → Sheet} (he : Exclusive mine id w)
    (hf : ∀ s t, w.sheets[i]? = some s → (f s).outlet? = some (.attached t) →
      s.outlet? = some (.attached t) ∨ (mine t ↔ i = id)) :
    Exclusive mine id (w.modifySheet i f) := by
  refine ⟨he.present, fun j s t hs ho => ?_⟩
  obtain ⟨s₀, hs₀, rfl⟩ := eq_of_modifySheet hs
  split at ho
  · next hij =>
    subst hij
    rcases hf s₀ t hs₀ ho with ho | hm
    · exact he.attached i s₀ t hs₀ ho
    · exact hm
  · exact he.attached j s₀ t hs₀ ho

theorem Exclusive.writeOutlet (he : Exclusive mine id w) : Exclusive mine id (w.writeOutlet i text o) := by
  cases o with
  | own => exact he.modifySheet fun s t _ ho => .inl ho
  | attached u => exact ⟨fun t ht => by simpa using he.present t ht, he.attached⟩

/-- Nothing that the sheet `id` is read through was changed. -/
structure Untouched (mine : Nat → Prop) (id : Nat) (w w' : World) : Prop where
  sheet : w'.sheets[id]? = w.sheets[id]?
  targets : ∀ t, mine t → w'.targets[t]? = w.targets[t]?
  queue : ∀ task : FlushTask, task.sheet = id → (task ∈ w'.queue ↔ task ∈ w.queue)
  handles : w'.handles = w.handles

/-- The step stays away from the sheet `id` and its targets. -/
def Aside (mine : Nat → Prop) (id : Nat) (w w' : World) : Prop :=
  Exclusive mine id w → Untouched mine id w w' ∧ Exclusive mine id w'

theorem Aside.refl (w : World) : Aside mine id w w :=
  fun he => ⟨⟨rfl, fun _ _ => rfl, fun _ _ => .rfl, rfl⟩, he⟩

theorem Aside.trans {a b c : World} (hab : Aside mine id a b) (hbc : Aside mine id b c) :
    Aside mine id a c := by
  intro he
  obtain ⟨uab, eb⟩ := hab he
  obtain ⟨ubc, ec⟩ := hbc eb
  refine ⟨⟨ubc.sheet.trans uab.sheet, fun t ht => (ubc.targets t ht).trans (uab.targets t ht),
    fun task ht => (ubc.queue task ht).trans (uab.queue task ht), ubc.handles.trans uab.handles⟩, ec⟩

theorem aside_modifySheet {f : Sheet → Sheet} (hi : i ≠ id)
    (hf : ∀ s t, (f s).outlet? = some (.attached t) → s.outlet? = some (.attached t) ∨ ¬ mine t) :
    Aside mine id w (w.modifySheet i f) := by
  intro he
  refine ⟨⟨modifySheet_ne hi, fun _ _ => rfl, fun _ _ => .rfl, rfl⟩, he.modifySheet fun s t _ ho => ?_⟩
  rcases hf s t ho with ho | hm
  · exact .inl ho
  · exact .inr ⟨fun h => absurd h hm, fun h => absurd h hi⟩

theorem aside_writeOutlet (hi : i ≠ id) (ho : ∀ t, o = .attached t → ¬ mine t) :
    Aside mine id w (w.writeOutlet i text o) := by
  intro he
  refine ⟨⟨writeOutlet_ne hi, fun t ht => writeOutlet_targets fun e => ho t e ht, fun _ _ => by simp,
    by simp⟩, he.writeOutlet⟩

theorem aside_flush (hi : i ≠ id) : Aside mine id w (w.flush i) := by
  intro he
  unfold flush
  split
  · exact Aside.refl w he
  · next s hs =>
    split
    · exact Aside.refl w he
    · next o ho =>
      -- the next outlet is the present one or the sheet's own target
      have hm : ∀ t, o = .attached t → ¬ mine t := by
        rintro t rfl ht
        have hat : s.outlet? = some (.attached t) := by
          unfold Sheet.nextOutlet? at ho
          cases hso : s.outlet? with
          | some o' => rwa [hso, Option.some_or] at ho
          | none =>
            rw [hso, Option.none_or] at ho
            split at ho <;> cases ho
        exact hi ((he.attached i s t hs hat).mp ht)
      refine ((aside_modifySheet hi fun s t hso => .inr ?_).trans (aside_writeOutlet hi hm)) he
      exact hm t (Option.some.inj hso)

theorem aside_runTask {task : FlushTask} (ht : task.sheet ≠ id) : Aside mine id w (w.runTask task) := by
  unfold runTask
  split
  · exact aside_flush ht
  · exact .refl w

theorem aside_schedule {task : FlushTask} (ht : task.sheet ≠ id) (delivery : Delivery) :
    Aside mine id w (w.schedule task delivery) := by
  cases delivery with
  | immediate => exact aside_runTask ht
  | onTick =>
    refine fun he => ⟨⟨rfl, fun _ _ => rfl, fun t hid => ?_, rfl⟩, he.present, he.attached⟩
    have hne : t ≠ task := fun e => ht (e ▸ hid)
    simp [schedule, hne]
  | unattended => exact .refl w

theorem aside_styleUpdated (hi : i ≠ id) : Aside mine id w (w.styleUpdated i) := by
  unfold styleUpdated
  split
  · exact .refl w
  · split
    · refine Aside.trans ?_ (aside_schedule hi _)
      exact aside_modifySheet hi fun s t ho => .inl ho
    · exact .refl w

theorem aside_register (hi : i ≠ id) (result : Except StyleError Answer × Registry) :
    Aside mine id w (w.register i result).2 := by
  obtain ⟨answer, registry⟩ := result
  have hstored : Aside mine id w (w.modifySheet i fun s => { s with registry }) :=
    aside_modifySheet hi fun s t ho => .inl ho
  cases answer with
  | error e => exact hstored
  | ok answer => exact hstored.trans (aside_styleUpdated hi)

theorem aside_stylesheet (hi : i ≠ id) (named : List (String × Description))
    (classes : List (String × String)) : Aside mine id w (w.stylesheet i classes named).2 := by
  induction named generalizing w classes with
  | nil => exact .refl w
  | cons entry rest ih =>
    obtain ⟨name, d⟩ := entry
    unfold stylesheet
    split
    · exact .refl w
    · next s _ =>
      have hs : Aside mine id w (w.style i s [some (d.withDebugName name)]).2 := aside_register hi _
      split
      · next c w₁ he => rw [he] at hs; exact hs.trans (ih _)
      · exact hs

theorem aside_setTarget (hi : i ≠ id) (s : Sheet) (hs : w.sheets[i]? = some s) {target : Nat}
    (ht : ¬ mine target) : Aside mine id w (w.setTarget i s target) := by
  intro he
  have hnew : ∀ t, Outlet.attached target = .attached t → ¬ mine t := by rintro t ⟨⟩; exact ht
  have hattach : Aside mine id w
      (w.modifySheet i fun s => s.issueToken.flushedTo (.attached target)) :=
    aside_modifySheet hi fun s t ho => .inr (hnew t (Option.some.inj ho))
  unfold setTarget
  refine (hattach.trans (Aside.trans ?_ (aside_writeOutlet hi hnew))) he
  split
  · exact .refl _
  · next o ho =>
    refine aside_writeOutlet hi fun t e hm => hi ?_
    exact (he.attached i s t hs (ho.trans (by rw [e]))).mp hm

theorem aside_reinit (hi : i ≠ id) (s : Sheet) (hs : w.sheets[i]? = some s) :
    Aside mine id w (w.reinit i s) := by
  intro he
  unfold reinit
  have hfresh : Aside mine id w (w.modifySheet i Sheet.reinit) :=
    aside_modifySheet hi fun s t ho => .inl ho
  split
  · exact hfresh he
  · next o ho =>
    refine (hfresh.trans (aside_writeOutlet hi fun t e hm => hi ?_)) he
    exact (he.attached i s t hs (ho.trans (by rw [e]))).mp hm

/-- An operation on another sheet that attaches no target of `mine`. -/
theorem aside_perform (hi : i ≠ id) (hs : w.sheets[i]? = some s) (c : Call)
    (hc : ∀ target, c = .setTarget target → ¬ mine target) :
    Aside mine id w (w.perform i s c).2 := by
  cases c with
  | style | cssRule | keyframes | fontFace => exact aside_register hi _
  | cssRaw css =>
    simp only [perform]
    split
    · exact .refl w
    · refine Aside.trans ?_ (aside_styleUpdated hi)
      exact aside_modifySheet hi fun s t ho => .inl ho
  | stylesheet named => exact aside_stylesheet hi named []
  | setTarget target => exact aside_setTarget hi s hs (hc target rfl)
  | forceRender =>
    refine Aside.trans ?_ (aside_flush hi)
    exact aside_modifySheet hi fun s t ho => .inl ho
  | reinit => exact aside_reinit hi s hs

end World

end StyleEngine
