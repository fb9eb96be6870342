import StyleEngine.Proofs.Registry.Attempt
import StyleEngine.Proofs.Registry.Change
import StyleEngine.Proofs.Sheet.Frame

/-!
# Targets follow their sheet

After any run, the outlet of a sheet has the text of the sheet, or a task that carries the current
token is queued and will write it (`Synced`). One step keeps this: a change of the registry raises
the version above the last flushed one, so the step issues a token and hands out its task; whatever
else issues a token writes at once.

The run lemma is `synced_run`; the outlets of all reachable worlds follow from it.
-/

namespace StyleEngine

namespace World

variable {w w' : World} {id : Nat} {mine : Nat → Prop} {config : SheetConfig} {s : Sheet}

/-- The outlet has the text of the sheet. A sheet without outlet that may make one has no text yet. -/
def Shows (w : World) (s : Sheet) : Prop :=
  match s.outlet? with
  | some _ => w.currentText? s = some s.css
  | none => s.autoTarget = true → s.css = ""

theorem shows_of_outlet {o : Outlet} (ho : s.outlet? = some o) (ht : w.currentText? s = some s.css) :
    Shows w s := by
  unfold Shows
  rw [ho]
  exact ht

/-- What the tracker of the sheet `s` under `id` can be relied on for. -/
structure Tracked (mine : Nat → Prop) (id : Nat) (config : SheetConfig) (w : World) (s : Sheet) :
    Prop where
  sheet : w.sheets[id]? = some s
  exclusive : Exclusive mine id w
  flushed : s.tracker.flushedVersion ≤ s.version
  autoTarget : s.autoTarget = config.autoTarget
  delivery : s.delivery = config.delivery
  attended : config.delivery ≠ .unattended
  /-- A task of an immediate sheet never waits. -/
  queued : config.delivery = .immediate → ∀ t ∈ w.queue, t.sheet ≠ id

theorem Tracked.modifySheet {f : Sheet → Sheet} (h : Tracked mine id config w s)
    (ha : (f s).autoTarget = s.autoTarget) (hd : (f s).delivery = s.delivery)
    (hv : (f s).tracker.flushedVersion ≤ (f s).version)
    (ho : ∀ t, (f s).outlet? = some (.attached t) → s.outlet? = some (.attached t) ∨ mine t) :
    Tracked mine id config (w.modifySheet id f) (f s) := by
  refine ⟨modifySheet_self h.sheet, h.exclusive.modifySheet fun s₁ t hs₁ ht => ?_, hv,
    ha.trans h.autoTarget, hd.trans h.delivery, h.attended, h.queued⟩
  obtain rfl : s = s₁ := Option.some.inj (h.sheet.symm.trans hs₁)
  rcases ho t ht with ht | hm
  · exact .inl ht
  · exact .inr ⟨fun _ => rfl, fun _ => hm⟩

theorem Tracked.writeOutlet {text : String} {o : Outlet} (h : Tracked mine id config w s) :
    Tracked mine id config (w.writeOutlet id text o) (s.received text o) :=
  ⟨writeOutlet_self h.sheet, h.exclusive.writeOutlet, by simpa using h.flushed,
    by simpa using h.autoTarget, by simpa using h.delivery, h.attended, by simpa using h.queued⟩

/-- An attached target of the sheet exists. -/
theorem Tracked.outlet_present (h : Tracked mine id config w s) {o : Outlet} (ho : s.outlet? = some o) :
    ∀ t, o = .attached t → t < w.targets.length := by
  rintro t rfl
  exact h.exclusive.present t ((h.exclusive.attached id s t h.sheet ho).mpr rfl)

/-- Writing its text to the outlet of a sheet brings the outlet up to date. -/
theorem Tracked.shows_writeOutlet {o : Outlet} (h : Tracked mine id config w s) (ho : s.outlet? = some o) :
    Shows (w.writeOutlet id s.css o) (s.received s.css o) := by
  refine shows_of_outlet (o := o) (by simpa using ho) ?_
  rw [currentText?_writeOutlet ho (h.outlet_present ho), Sheet.received_css]

/-- The task of the current token is among `tasks`. -/
def Awaits (tasks : List FlushTask) (id : Nat) (s : Sheet) : Prop := ⟨id, s.tracker.token⟩ ∈ tasks

/-- The sheet `id` is tracked, and while it has a handle its outlet is up to date or will be. -/
def Synced (mine : Nat → Prop) (id : Nat) (config : SheetConfig) (w : World) : Prop :=
  ∃ s, Tracked mine id config w s ∧
    (w.isAlive id = true → Shows w s ∨ (s.needsFlush = true ∧ Awaits w.queue id s))

theorem synced_of_shows (h : Tracked mine id config w s) (hs : Shows w s) : Synced mine id config w :=
  ⟨s, h, fun _ => .inl hs⟩

/-! ## Operations on the sheet itself -/

/-- A flush writes the text to the outlet. -/
theorem flush_shows (h : Tracked mine id config w s) :
    ∃ s', Tracked mine id config (w.flush id) s' ∧ Shows (w.flush id) s' := by
  cases hn : s.nextOutlet? with
  | none =>
    have hw : w.flush id = w := by simp only [flush, h.sheet, hn]
    rw [hw]
    refine ⟨s, h, ?_⟩
    unfold Sheet.nextOutlet? at hn
    unfold Shows
    cases ho : s.outlet? with
    | some o => rw [ho] at hn; cases hn
    | none => intro ha; rw [ho, ha] at hn; cases hn
  | some o =>
    have hw : w.flush id = (w.modifySheet id (·.flushedTo o)).writeOutlet id s.css o := by
      simp only [flush, h.sheet, hn]
    rw [hw]
    have hf : Tracked mine id config (w.modifySheet id (·.flushedTo o)) (s.flushedTo o) := by
      refine h.modifySheet (f := (·.flushedTo o)) rfl rfl (Nat.le_refl _) fun t ht => .inl ?_
      -- only the sheet's own target is ever made by a flush
      obtain rfl : o = .attached t := Option.some.inj ht
      unfold Sheet.nextOutlet? at hn
      cases ho : s.outlet? with
      | some o' => rwa [ho, Option.some_or] at hn
      | none => rw [ho, Option.none_or] at hn; split at hn <;> cases hn
    exact ⟨_, hf.writeOutlet, hf.shows_writeOutlet rfl⟩

/-- With a handle left, a task of the current token writes. -/
theorem runTask_shows (h : Tracked mine id config w s) (ha : w.isAlive id = true) :
    ∃ s', Tracked mine id config (w.runTask ⟨id, s.tracker.token⟩) s' ∧
      Shows (w.runTask ⟨id, s.tracker.token⟩) s' := by
  have hc : w.isCurrent ⟨id, s.tracker.token⟩ = true := by simp [isCurrent, h.sheet]
  simpa [runTask, ha, hc] using flush_shows h

/-- After a change that the tracker can see, the update brings the sheet in step. -/
theorem synced_styleUpdated (h : Tracked mine id config w s) (ha : w.isAlive id = true)
    (hs : s.needsFlush = false → Shows w s) : Synced mine id config (w.styleUpdated id) := by
  unfold styleUpdated
  rw [h.sheet]
  by_cases hf : (s.needsFlush && s.canFlush) = true
  · obtain ⟨hn, -⟩ := Bool.and_eq_true_iff.mp hf
    have hi : Tracked mine id config (w.modifySheet id Sheet.issueToken) s.issueToken :=
      h.modifySheet rfl rfl h.flushed fun t ht => .inl ht
    simp only [hf, if_true]
    cases hd : s.delivery with
    | immediate =>
      obtain ⟨s', ht, hw⟩ := runTask_shows hi ha
      exact synced_of_shows ht hw
    | onTick =>
      refine ⟨s.issueToken, ⟨hi.sheet, ⟨hi.exclusive.present, hi.exclusive.attached⟩, hi.flushed,
        hi.autoTarget, hi.delivery, hi.attended, fun he => ?_⟩,
        fun _ => .inr ⟨hn, List.mem_append_right _ (List.mem_singleton_self _)⟩⟩
      cases hd.symm.trans (h.delivery.trans he)
    | unattended => exact absurd (h.delivery.symm.trans hd) h.attended
  · simp only [hf, Bool.false_eq_true, if_false]
    refine synced_of_shows h ?_
    rcases Bool.and_eq_false_iff.mp (Bool.not_eq_true _ ▸ hf) with hn | hc
    · exact hs hn
    · -- neither an outlet nor the right to make one
      obtain ⟨ho, hauto⟩ := Bool.or_eq_false_iff.mp hc
      unfold Shows
      rw [Option.isSome_eq_false_iff, Option.isNone_iff_eq_none] at ho
      rw [ho]
      intro ht
      rw [hauto] at ht
      cases ht

theorem shows_of_settled (hs : Shows w s ∨ (s.needsFlush = true ∧ Awaits w.queue id s))
    (hn : s.needsFlush = false) : Shows w s := by
  rcases hs with hs | ⟨ht, -⟩
  · exact hs
  · rw [hn] at ht; cases ht

/-- Storing the registry that is there. -/
theorem modifySheet_registry (hs : w.sheets[id]? = some s) :
    w.modifySheet id (fun s' => { s' with registry := s.registry }) = w := by
  have hsheets : w.sheets.modify id (fun s' => { s' with registry := s.registry }) = w.sheets := by
    refine List.ext_getElem? fun i => ?_
    rw [List.getElem?_modify]
    split
    · next hi => rw [← hi, hs]; rfl
    · exact id_map _
  rw [modifySheet, hsheets]

/-- What an atomic registration comes to: nothing happens, or its registry is stored. -/
def record (w : World) (id : Nat) : Except StyleError (Answer × Registry) → Except StyleError Answer × World
  | .error e => (.error e, w)
  | .ok (answer, registry) => (.ok answer, (w.modifySheet id fun s => { s with registry }).styleUpdated id)

theorem register_attempt (hs : w.sheets[id]? = some s) {work : Registry.Work Answer} (hw : work.Atomic) :
    w.register id (s.registry.attempt work) = w.record id (Registry.answered (s.registry.attempt work)) := by
  rcases hattempt : s.registry.attempt work with ⟨e | answer, registry⟩
  · rw [hw _ _ _ hattempt]
    exact congrArg _ (modifySheet_registry hs)
  · rfl

theorem style_eq_record (hs : w.sheets[id]? = some s) (ds : List (Option Description)) :
    w.style id s ds =
      w.record id ((s.registry.registerStyle (Description.extend ds) (w.debugMode s)).map
        fun (name, registry) => (.name name, registry)) := by
  rw [style, register_attempt hs ((Registry.atomic_storeStyle _ _).map _), Registry.answered_attempt_map]
  rfl

theorem perform_cssRule (hs : w.sheets[id]? = some s) (selector : String) (ds : List (Option Description)) :
    w.perform id s (.cssRule selector ds) =
      w.record id ((s.registry.registerRule selector (Description.extend ds)).map (.done, ·)) := by
  rw [perform, register_attempt hs ((Registry.atomic_storeRule _ _).map _), Registry.answered_attempt_done]
  rfl

theorem perform_keyframes (hs : w.sheets[id]? = some s) (k : Keyframes) :
    w.perform id s (.keyframes k) =
      w.record id ((s.registry.registerKeyframes k (w.debugMode s)).map
        fun (name, registry) => (.name name, registry)) := by
  rw [perform, register_attempt hs ((Registry.atomic_storeKeyframes _ _).map _), Registry.answered_attempt_map]
  rfl

theorem perform_fontFace (hs : w.sheets[id]? = some s) (ds : List Description) :
    w.perform id s (.fontFace ds) = w.record id ((s.registry.registerFaces ds).map (.done, ·)) := by
  rw [perform, register_attempt hs ((Registry.atomic_storeFaces _).map _), Registry.answered_attempt_done]
  rfl

/-- A registration stores nothing or raises the version, which is never the flushed one. -/
theorem synced_record (h : Synced mine id config w) (ha : w.isAlive id = true)
    {result : Except StyleError (Answer × Registry)}
    (hr : ∀ s answer registry, w.sheets[id]? = some s → result = .ok (answer, registry) →
      Registry.Advance s.registry registry) :
    Synced mine id config (w.record id result).2 := by
  cases result with
  | error e => exact h
  | ok r =>
    obtain ⟨answer, registry⟩ := r
    obtain ⟨s, ht, hs⟩ := h
    have hle : s.version ≤ registry.version := by
      rcases hr s answer registry ht.sheet rfl with rfl | hlt
      · exact Nat.le_refl _
      · exact Nat.le_of_lt hlt
    have htr : Tracked mine id config (w.modifySheet id fun s => { s with registry }) { s with registry } :=
      ht.modifySheet (f := fun s => { s with registry }) rfl rfl (Nat.le_trans ht.flushed hle)
        fun t hto => .inl hto
    refine synced_styleUpdated htr ha fun hn => ?_
    rcases hr s answer registry ht.sheet rfl with rfl | hlt
    · exact shows_of_settled (hs ha) hn
    · have hne : (registry.version != s.tracker.flushedVersion) = false :=
        (Bool.or_eq_false_iff.mp hn).2
      have heq : registry.version = s.tracker.flushedVersion := by simpa using hne
      have hfl := ht.flushed
      have hlt' : s.version < registry.version := hlt
      omega

theorem synced_style (h : Synced mine id config w) (ha : w.isAlive id = true) (hs : w.sheets[id]? = some s)
    (ds : List (Option Description)) : Synced mine id config (w.style id s ds).2 := by
  rw [style_eq_record hs]
  refine synced_record h ha fun s' answer registry hs' hok => ?_
  obtain rfl : s = s' := Option.some.inj (hs.symm.trans hs')
  obtain ⟨⟨name, r'⟩, hreg, he⟩ := ok_of_map_ok hok
  obtain ⟨-, rfl⟩ := Prod.mk.inj he
  exact Registry.advance_registerStyle hreg

theorem isAlive_congr (h : w'.handles = w.handles) : w'.isAlive id = w.isAlive id := by
  simp only [isAlive, h]

theorem synced_stylesheet (h : Synced mine id config w) (ha : w.isAlive id = true)
    (named : List (String × Description)) (classes : List (String × String)) :
    Synced mine id config (w.stylesheet id classes named).2 := by
  induction named generalizing w classes with
  | nil => exact h
  | cons entry rest ih =>
    obtain ⟨name, d⟩ := entry
    unfold stylesheet
    split
    · exact h
    · next s hs =>
      have hst := synced_style h ha hs [some (d.withDebugName name)]
      have hal : (w.style id s [some (d.withDebugName name)]).2.isAlive id = true :=
        (isAlive_congr (register_handles _)).trans ha
      split
      · next c w₁ he => rw [he] at hst hal; exact ih hst hal _
      · exact hst

/-- Whatever the earlier outlet was sent, the new target receives the text last. -/
theorem synced_setTarget (h : Tracked mine id config w s) {target : Nat} (ht : mine target) :
    Synced mine id config (w.setTarget id s target) := by
  have hattach : Tracked mine id config (w.modifySheet id fun s => s.issueToken.flushedTo (.attached target))
      (s.issueToken.flushedTo (.attached target)) := by
    refine h.modifySheet (f := fun s => s.issueToken.flushedTo (.attached target)) rfl rfl
      (Nat.le_refl _) fun t hto => .inr ?_
    obtain rfl : target = t := Outlet.attached.inj (Option.some.inj hto)
    exact ht
  unfold setTarget
  cases ho : s.outlet? with
  | none => exact synced_of_shows hattach.writeOutlet (hattach.shows_writeOutlet rfl)
  | some o =>
    have hcleared : Tracked mine id config _ (Sheet.received _ "" o) := hattach.writeOutlet
    have hshown := hcleared.shows_writeOutlet (o := .attached target) (by simp [Sheet.flushedTo])
    have hcss : ((s.issueToken.flushedTo (.attached target)).received "" o).css = s.css :=
      Sheet.received_css ..
    rw [hcss] at hshown
    exact synced_of_shows hcleared.writeOutlet hshown

theorem synced_reinit (h : Tracked mine id config w s) : Synced mine id config (w.reinit id s) := by
  have hfresh : Tracked mine id config (w.modifySheet id Sheet.reinit) s.reinit :=
    h.modifySheet rfl rfl (Nat.le_refl _) fun t ht => .inl ht
  have hempty : s.reinit.css = "" := rfl
  unfold reinit
  cases ho : s.outlet? with
  | none =>
    refine synced_of_shows hfresh ?_
    have hn : s.reinit.outlet? = none := ho
    unfold Shows
    rw [hn]
    exact fun _ => hempty
  | some o =>
    have hshown := hfresh.shows_writeOutlet (o := o) ho
    rw [hempty] at hshown
    exact synced_of_shows hfresh.writeOutlet hshown

/-- An operation on the sheet itself. -/
theorem synced_perform (h : Synced mine id config w) (ha : w.isAlive id = true) (hs : w.sheets[id]? = some s)
    (c : Call) (hc : ∀ target, c = .setTarget target → mine target) :
    Synced mine id config (w.perform id s c).2 := by
  have ⟨s', ht, _⟩ := h
  obtain rfl : s = s' := Option.some.inj (hs.symm.trans ht.sheet)
  cases c with
  | style ds => exact synced_style h ha hs ds
  | cssRule selector ds =>
    rw [perform_cssRule hs]
    refine synced_record h ha fun s₁ answer registry hs₁ hok => ?_
    obtain rfl : s = s₁ := Option.some.inj (hs.symm.trans hs₁)
    obtain ⟨r', hreg, he⟩ := ok_of_map_ok hok
    obtain ⟨-, rfl⟩ := Prod.mk.inj he
    exact Registry.advance_registerRule hreg
  | keyframes k =>
    rw [perform_keyframes hs]
    refine synced_record h ha fun s₁ answer registry hs₁ hok => ?_
    obtain rfl : s = s₁ := Option.some.inj (hs.symm.trans hs₁)
    obtain ⟨⟨name, r'⟩, hreg, he⟩ := ok_of_map_ok hok
    obtain ⟨-, rfl⟩ := Prod.mk.inj he
    exact Registry.advance_registerKeyframes hreg
  | fontFace ds =>
    rw [perform_fontFace hs]
    refine synced_record h ha fun s₁ answer registry hs₁ hok => ?_
    obtain rfl : s = s₁ := Option.some.inj (hs.symm.trans hs₁)
    obtain ⟨r', hreg, he⟩ := ok_of_map_ok hok
    obtain ⟨-, rfl⟩ := Prod.mk.inj he
    exact Registry.advance_registerFaces hreg
  | cssRaw css =>
    simp only [perform]
    split
    · exact h
    · have hm := ht.modifySheet
        (f := fun s => { s with raw := s.raw ++ css, tracker := s.tracker.markRaw }) rfl rfl
        ht.flushed fun t hto => .inl hto
      -- the mark stays up until the next flush
      refine synced_styleUpdated hm ha fun hn => ?_
      cases hn
  | stylesheet named => exact synced_stylesheet h ha named []
  | setTarget target => exact synced_setTarget ht (hc target rfl)
  | forceRender =>
    have hi : Tracked mine id config (w.modifySheet id Sheet.issueToken) s.issueToken :=
      ht.modifySheet rfl rfl ht.flushed fun t hto => .inl hto
    obtain ⟨s', ht', hw⟩ := flush_shows hi
    exact synced_of_shows ht' hw
  | reinit => exact synced_reinit ht

/-! ## Ticks -/

/-- The sheet is in step once the tasks `rest` have run. -/
def SyncedBy (rest : List FlushTask) (mine : Nat → Prop) (id : Nat) (config : SheetConfig) (w : World) :
    Prop :=
  ∃ s, Tracked mine id config w s ∧ (w.isAlive id = true → Shows w s ∨ Awaits rest id s)

theorem shows_of_untouched (hu : Untouched mine id w w') (h : Tracked mine id config w s) (hs : Shows w s) :
    Shows w' s := by
  unfold Shows currentText? at hs ⊢
  cases ho : s.outlet? with
  | none => simpa [ho] using hs
  | some o =>
    cases o with
    | own => simpa [ho] using hs
    | attached t =>
      have hm : mine t := (h.exclusive.attached id s t h.sheet ho).mpr rfl
      simp only [ho] at hs ⊢
      rw [hu.targets t hm, hs]

theorem tracked_of_aside (ha : Aside mine id w w') (h : Tracked mine id config w s) :
    Tracked mine id config w' s := by
  obtain ⟨hu, he⟩ := ha h.exclusive
  refine ⟨hu.sheet.trans h.sheet, he, h.flushed, h.autoTarget, h.delivery, h.attended, fun hi t ht hid => ?_⟩
  exact h.queued hi t ((hu.queue t hid).mp ht) hid

/-- One task less to run: the current one writes, any other leaves the sheet as it is. -/
theorem syncedBy_runTask {task : FlushTask} {rest : List FlushTask}
    (h : SyncedBy (task :: rest) mine id config w) : SyncedBy rest mine id config (w.runTask task) := by
  obtain ⟨s, ht, hs⟩ := h
  have hal : (w.runTask task).isAlive id = w.isAlive id := isAlive_congr (runTask_handles task)
  by_cases hid : task.sheet = id
  · by_cases hrun : (w.isAlive task.sheet && w.isCurrent task) = true
    · have hw : w.runTask task = w.flush id := by
        unfold runTask
        rw [if_pos hrun, hid]
      rw [hw]
      obtain ⟨s', ht', hw'⟩ := flush_shows ht
      exact ⟨s', ht', fun _ => .inl hw'⟩
    · have hw : w.runTask task = w := by
        unfold runTask
        rw [if_neg hrun]
      rw [hw]
      refine ⟨s, ht, fun ha => ?_⟩
      rcases hs ha with hs | hs
      · exact .inl hs
      · rcases List.mem_cons.mp hs with rfl | hmem
        · -- a live sheet's current task cannot have been skipped
          exact absurd (by simp [ha, isCurrent, ht.sheet]) hrun
        · exact .inr hmem
  · have ha : Aside mine id w (w.runTask task) := aside_runTask hid
    refine ⟨s, tracked_of_aside ha ht, fun hl => ?_⟩
    rcases hs (hal ▸ hl) with hs | hs
    · exact .inl (shows_of_untouched (ha ht.exclusive).1 ht hs)
    · rcases List.mem_cons.mp hs with rfl | hmem
      · exact absurd rfl hid
      · exact .inr hmem

theorem syncedBy_foldl {tasks : List FlushTask} (h : SyncedBy tasks mine id config w) :
    SyncedBy [] mine id config (tasks.foldl runTask w) := by
  induction tasks generalizing w with
  | nil => exact h
  | cons t rest ih => exact ih (syncedBy_runTask h)

theorem foldl_runTask_queue (tasks : List FlushTask) (w : World) :
    (tasks.foldl runTask w).queue = w.queue := by
  induction tasks generalizing w with
  | nil => rfl
  | cons t rest ih => rw [List.foldl_cons, ih, runTask_queue]

theorem tick_eq (w : World) : w.tick.2 = w.queue.foldl runTask { w with queue := [] } := rfl

theorem tick_queue (w : World) : w.tick.2.queue = [] := by
  rw [tick_eq, foldl_runTask_queue]

theorem synced_tick (h : Synced mine id config w) : Synced mine id config w.tick.2 := by
  obtain ⟨s, ht, hs⟩ := h
  have hstart : SyncedBy w.queue mine id config { w with queue := [] } := by
    refine ⟨s, ⟨ht.sheet, ⟨ht.exclusive.present, ht.exclusive.attached⟩, ht.flushed, ht.autoTarget,
      ht.delivery, ht.attended, fun _ t hm => absurd hm List.not_mem_nil⟩, fun ha => ?_⟩
    rcases hs ha with hs | ⟨-, hq⟩
    · exact .inl hs
    · exact .inr hq
  obtain ⟨s', ht', hs'⟩ := syncedBy_foldl hstart
  rw [tick_eq]
  refine ⟨s', ht', fun ha => ?_⟩
  rcases hs' ha with hs' | hq
  · exact .inl hs'
  · exact absurd hq List.not_mem_nil

/-! ## Runs -/

/-- The step attaches a target of `mine` to the sheet `id` only, and writes to none of them. -/
def Respects (mine : Nat → Prop) (id : Nat) (w : World) : Step → Prop
  | .call handle (.setTarget target) => ∀ i, w.sheetOf? handle = some i → (mine target ↔ i = id)
  | .write target _ => ¬ mine target
  | _ => True

/-- Every step of a run respects the targets of the sheet. -/
def RunRespects (mine : Nat → Prop) (id : Nat) : World → List Step → Prop
  | _, [] => True
  | w, step :: rest => Respects mine id w step ∧ RunRespects mine id (w.step step).2 rest

theorem isAlive_of_sheetOf? {handle : Nat} (h : w.sheetOf? handle = some id) : w.isAlive id = true := by
  unfold sheetOf? at h
  unfold isAlive
  rw [List.contains_iff_mem]
  exact List.mem_of_getElem? (Option.join_eq_some_iff.mp h)

/-- A step that changes neither sheets nor targets nor the queue, and revives no sheet. -/
theorem synced_of_same (h : Synced mine id config w) (hsh : w'.sheets = w.sheets) (htg : w'.targets = w.targets)
    (hq : w'.queue = w.queue) (hl : w'.isAlive id = true → w.isAlive id = true) : Synced mine id config w' := by
  obtain ⟨s, ht, hs⟩ := h
  refine ⟨s, ⟨hsh ▸ ht.sheet, ⟨htg ▸ ht.exclusive.present, hsh ▸ ht.exclusive.attached⟩, ht.flushed,
    ht.autoTarget, ht.delivery, ht.attended, hq ▸ ht.queued⟩, fun ha => ?_⟩
  rcases hs (hl ha) with hs | hs
  · refine .inl ?_
    unfold Shows currentText? at hs ⊢
    rwa [htg]
  · exact .inr (hq ▸ hs)

theorem synced_of_aside (ha : Aside mine id w w') (h : Synced mine id config w) : Synced mine id config w' := by
  obtain ⟨s, ht, hs⟩ := h
  have hu := (ha ht.exclusive).1
  refine ⟨s, tracked_of_aside ha ht, fun hl => ?_⟩
  rcases hs (isAlive_congr hu.handles ▸ hl) with hs | ⟨hn, hq⟩
  · exact .inl (shows_of_untouched hu ht hs)
  · exact .inr ⟨hn, (hu.queue _ rfl).mpr hq⟩

theorem synced_call (h : Synced mine id config w) {handle : Nat} {c : Call}
    (hr : Respects mine id w (.call handle c)) : Synced mine id config (w.call handle c).2 := by
  unfold call
  cases hh : w.sheetOf? handle with
  | none => exact h
  | some i =>
    have hset : ∀ target, c = .setTarget target → (mine target ↔ i = id) := by
      rintro target rfl
      exact hr i hh
    simp only
    cases hs : w.sheets[i]? with
    | none => exact h
    | some s =>
      by_cases hi : i = id
      · subst hi
        exact synced_perform h (isAlive_of_sheetOf? hh) hs c fun target e => (hset target e).mpr rfl
      · exact synced_of_aside (aside_perform hi hs c fun target e hm => hi ((hset target e).mp hm)) h

/-- One step keeps the sheet in step. -/
theorem synced_step (h : Synced mine id config w) {step : Step} (hr : Respects mine id w step) :
    Synced mine id config (w.step step).2 := by
  cases step with
  | call handle c => exact synced_call h hr
  | tick => exact synced_tick h
  | write target text =>
    have ha : Aside mine id w (w.writeTarget target text) := by
      intro he
      refine ⟨⟨rfl, fun t ht => ?_, fun _ _ => .rfl, rfl⟩, he.writeOutlet (i := id) (o := .attached target)⟩
      have hne : target ≠ t := fun e => hr (e ▸ ht)
      simp [writeTarget, hne]
    exact synced_of_aside ha h
  | clone handle =>
    refine synced_of_same h rfl rfl rfl fun ha => ?_
    unfold isAlive at ha ⊢
    rw [List.contains_iff_mem] at ha ⊢
    rcases List.mem_append.mp ha with hm | hm
    · exact hm
    · exact List.contains_iff_mem.mp (isAlive_of_sheetOf? (List.mem_singleton.mp hm).symm)
  | drop handle =>
    refine synced_of_same h rfl rfl rfl fun ha => ?_
    unfold isAlive at ha ⊢
    rw [List.contains_iff_mem] at ha ⊢
    rcases List.mem_or_eq_of_mem_set ha with hm | hm
    · exact hm
    · cases hm
  | detect mode => exact synced_of_same h rfl rfl rfl fun ha => ha
  | setEnvironment environment => exact synced_of_same h rfl rfl rfl fun ha => ha

/-- A whole run keeps the sheet in step. -/
theorem synced_run (h : Synced mine id config w) {steps : List Step} (hr : RunRespects mine id w steps) :
    Synced mine id config (w.run steps).2 := by
  induction steps generalizing w with
  | nil => exact h
  | cons step rest ih => exact ih (synced_step h hr.1) hr.2

theorem run_append (w : World) (first second : List Step) :
    (w.run (first ++ second)).2 = ((w.run first).2.run second).2 := by
  induction first generalizing w with
  | nil => rfl
  | cons step rest ih => exact ih _

/-- A fresh sheet has nothing to show. -/
theorem synced_start {configs : List SheetConfig} {targets : Nat}
    (hc : configs[id]? = some config) (hd : config.delivery ≠ .unattended)
    (hm : ∀ t, mine t → t < targets) : Synced mine id config (start configs targets) := by
  refine ⟨Sheet.ofConfig config, ⟨by simp [start, hc], ⟨fun t ht => ?_, fun i s t hs ho => ?_⟩,
    Nat.le_refl _, rfl, rfl, hd, fun _ t ht => absurd ht List.not_mem_nil⟩, fun _ => .inl fun _ => rfl⟩
  · simpa [start] using hm t ht
  · simp only [start, List.getElem?_map, Option.map_eq_some_iff] at hs
    obtain ⟨c', -, rfl⟩ := hs
    cases ho

/-- After any run in which nobody else uses its targets, the outlet of a sheet with a handle has the
text of the sheet, or the task of the current token is queued. After a tick, and always when tasks
run at once, the outlet has the text. -/
theorem outlet_follows_sheet (configs : List SheetConfig) (targets : Nat) (steps : List Step)
    (hc : configs[id]? = some config) (hd : config.delivery ≠ .unattended)
    (hm : ∀ t, mine t → t < targets) (hr : RunRespects mine id (start configs targets) steps) :
    let w := ((start configs targets).run steps).2
    ∃ s, w.sheets[id]? = some s ∧ s.autoTarget = config.autoTarget ∧
      (w.isAlive id = true →
        (Shows w s ∨ ⟨id, s.tracker.token⟩ ∈ w.queue) ∧
        (steps.getLast? = some .tick ∨ config.delivery = .immediate → Shows w s)) := by
  intro w
  obtain ⟨s, ht, hs⟩ : Synced mine id config w := synced_run (synced_start hc hd hm) hr
  refine ⟨s, ht.sheet, ht.autoTarget, fun ha => ?_⟩
  have hs : Shows w s ∨ ⟨id, s.tracker.token⟩ ∈ w.queue := (hs ha).imp_right And.right
  refine ⟨hs, fun hlast => hs.resolve_right fun hq => ?_⟩
  rcases hlast with hlast | hi
  · obtain ⟨earlier, rfl⟩ := List.getLast?_eq_some_iff.mp hlast
    have hempty : w.queue = [] := by
      simp only [w, run_append]
      exact tick_queue _
    rw [hempty] at hq
    exact absurd hq List.not_mem_nil
  · exact ht.queued hi _ hq rfl

/-- Two sheets share the scheduler; the first has a target, loses its text and gets new text. -/
def sharedRun : List Step :=
  [.call 0 (.setTarget 1), .call 0 (.cssRaw "a"), .call 1 (.cssRaw "b"), .call 0 .reinit,
    .call 0 (.cssRaw "c"), .tick]

theorem outlet_follows_sheet_sharedRun :
    RunRespects (· = 1) 0 (start [{}, { autoTarget := true }] 2) sharedRun ∧
    ∃ s, ((start [{}, { autoTarget := true }] 2).run sharedRun).2.sheets[0]? = some s ∧
      Shows ((start [{}, { autoTarget := true }] 2).run sharedRun).2 s := by
  have hr : RunRespects (· = 1) 0 (start [{}, { autoTarget := true }] 2) sharedRun := by
    simp [sharedRun, RunRespects, Respects, sheetOf?, start]
  have hc : ([{}, { autoTarget := true }] : List SheetConfig)[0]? = some { autoTarget := false } := rfl
  obtain ⟨s, hs, -, h⟩ := outlet_follows_sheet _ 2 sharedRun hc (by decide) (by omega) hr
  exact ⟨hr, s, hs, (h (by decide)).2 (.inl rfl)⟩

end World

end StyleEngine
