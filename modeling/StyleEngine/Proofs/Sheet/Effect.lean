import StyleEngine.Proofs.Sheet.Synchrony

/-!
# Effects of operations

An operation through a handle reads its own sheet and whether debug mode is on, and nothing else of the
world. What it does is an `Effect`: the sheet afterwards, the texts for attached targets, and the tokens
of the flushes that are queued. Performing an operation is applying its effect (`perform_eq_apply`), a task
that is run applies the effect of a flush or nothing (`runTask_cases`), and no effect reaches beyond what its
sheet may touch (`Effect.Follows`).
-/

namespace StyleEngine

/-- What an operation on a sheet comes to. -/
structure Effect where
  sheet : Sheet
  /-- The texts for attached targets, in order. -/
  writes : List (Nat × String) := []
  /-- The tokens of the flushes that are queued. -/
  tokens : List Nat := []

namespace Effect

/-- The effect of what is done next comes on top. -/
def andThen (e : Effect) (next : Effect) : Effect where
  sheet := next.sheet
  writes := e.writes ++ next.writes
  tokens := e.tokens ++ next.tokens

end Effect

/-- What an outlet passes on to an attached target. -/
def Outlet.writes (text : String) : Outlet → List (Nat × String)
  | own => []
  | attached target => [(target, text)]

namespace Sheet

/-- A text goes to an outlet of the sheet. -/
def sent (s : Sheet) (text : String) (o : Outlet) : Effect where
  sheet := s.received text o
  writes := o.writes text

def flushEffect (s : Sheet) : Effect :=
  match s.nextOutlet? with
  | none => { sheet := s }
  | some o => (s.flushedTo o).sent s.css o

def updateEffect (s : Sheet) : Effect :=
  if s.needsFlush && s.canFlush then
    match s.delivery with
    | .immediate => s.issueToken.flushEffect
    | .onTick => { sheet := s.issueToken, tokens := [s.tracker.token + 1] }
    | .unattended => { sheet := s.issueToken }
  else { sheet := s }

def registerEffect (s : Sheet) :
    Except StyleError (Answer × Registry) → Except StyleError Answer × Effect
  | .error e => (.error e, { sheet := s })
  | .ok (answer, registry) => (.ok answer, { s with registry }.updateEffect)

/-- Debug mode as the sheet has it. Without a setting of its own it is `debug`. -/
def debugMode (debug : Bool) (s : Sheet) : Bool := s.debug?.getD debug

def styleEffect (debug : Bool) (s : Sheet) (ds : List (Option Description)) :
    Except StyleError Answer × Effect :=
  s.registerEffect ((s.registry.registerStyle (Description.extend ds) (s.debugMode debug)).map
    fun (name, registry) => (.name name, registry))

def stylesheetEffect (debug : Bool) (s : Sheet) (classes : List (String × String)) :
    List (String × Description) → Except StyleError Answer × Effect
  | [] => (.ok (.names classes), { sheet := s })
  | (name, d) :: rest =>
    match s.styleEffect debug [some (d.withDebugName name)] with
    | (.ok (.name c), e) =>
      let later := stylesheetEffect debug e.sheet (Keyed.put name c classes) rest
      (later.1, e.andThen later.2)
    | result => result

def setTargetEffect (s : Sheet) (target : Nat) : Effect :=
  let attached := s.issueToken.flushedTo (.attached target)
  let cleared : Effect :=
    match s.outlet? with
    | none => { sheet := attached }
    | some o => attached.sent "" o
  cleared.andThen (cleared.sheet.sent s.css (.attached target))

def reinitEffect (s : Sheet) : Effect :=
  match s.outlet? with
  | none => { sheet := s.reinit }
  | some o => s.reinit.sent "" o

/-- What an operation answers and does, with `debug` as the debug mode of the surroundings. -/
def effect (debug : Bool) (s : Sheet) : Call → Except StyleError Answer × Effect
  | .style ds => s.styleEffect debug ds
  | .cssRule selector ds =>
    s.registerEffect ((s.registry.registerRule selector (Description.extend ds)).map (.done, ·))
  | .keyframes k =>
    s.registerEffect ((s.registry.registerKeyframes k (s.debugMode debug)).map
      fun (name, registry) => (.name name, registry))
  | .fontFace ds => s.registerEffect ((s.registry.registerFaces ds).map (.done, ·))
  | .cssRaw css =>
    if css.isEmpty then (.ok .done, { sheet := s })
    else
      (.ok .done, { s with raw := s.raw ++ css, tracker := s.tracker.markRaw }.updateEffect)
  | .stylesheet named => s.stylesheetEffect debug [] named
  | .setTarget target => (.ok .done, s.setTargetEffect target)
  | .forceRender => (.ok .done, s.issueToken.flushEffect)
  | .reinit => (.ok .done, s.reinitEffect)

end Sheet

/-! ## What effects have in common -/

/-- What an effect can do to the sheet `s`, where `new` are the targets that it may attach: it issues tokens,
queues tasks for some of them, and writes to no other target than the one it finds or attaches. -/
structure Effect.Follows (new : Nat → Prop) (s : Sheet) (e : Effect) : Prop where
  token : s.tracker.token ≤ e.sheet.tracker.token
  tokens : ∀ n ∈ e.tokens, s.tracker.token < n ∧ n ≤ e.sheet.tracker.token
  autoTarget : e.sheet.autoTarget = s.autoTarget
  debug : e.sheet.debug? = s.debug?
  delivery : e.sheet.delivery = s.delivery
  attached : ∀ t, e.sheet.outlet? = some (.attached t) → s.outlet? = some (.attached t) ∨ new t
  writes : ∀ t ∈ e.writes, s.outlet? = some (.attached t.1) ∨ new t.1
  /-- A sheet that has no outlet never had one. -/
  own : e.sheet.outlet? = none → s.outlet? = none ∧ e.sheet.own = s.own

namespace Effect.Follows

variable {new : Nat → Prop} {s s' : Sheet} {e next : Effect}

theorem andThen (h : Follows new s e) (h' : Follows new e.sheet next) : Follows new s (e.andThen next) where
  token := Nat.le_trans h.token h'.token
  tokens := fun n hn => by
    rcases List.mem_append.mp hn with hn | hn
    · exact ⟨(h.tokens n hn).1, Nat.le_trans (h.tokens n hn).2 h'.token⟩
    · exact ⟨Nat.lt_of_le_of_lt h.token (h'.tokens n hn).1, (h'.tokens n hn).2⟩
  autoTarget := h'.autoTarget.trans h.autoTarget
  debug := h'.debug.trans h.debug
  delivery := h'.delivery.trans h.delivery
  attached := fun t ht => (h'.attached t ht).elim (h.attached t) .inr
  writes := fun t ht => by
    rcases List.mem_append.mp ht with ht | ht
    · exact h.writes t ht
    · exact (h'.writes t ht).elim (h.attached t.1) .inr
  own := fun ho => by
    obtain ⟨ho', hown'⟩ := h'.own ho
    obtain ⟨hs, hown⟩ := h.own ho'
    exact ⟨hs, hown'.trans hown⟩

/-- A change of the sheet alone that leaves its outlet and its settings. -/
theorem quiet (htoken : s.tracker.token ≤ s'.tracker.token) (houtlet : s'.outlet? = s.outlet?)
    (hown : s'.own = s.own) (hauto : s'.autoTarget = s.autoTarget) (hdebug : s'.debug? = s.debug?)
    (hdelivery : s'.delivery = s.delivery) : Follows new s { sheet := s' } where
  token := htoken
  tokens := fun _ hn => absurd hn List.not_mem_nil
  autoTarget := hauto
  debug := hdebug
  delivery := hdelivery
  attached := fun _ ht => .inl (houtlet ▸ ht)
  writes := fun _ ht => absurd ht List.not_mem_nil
  own := fun ho => ⟨houtlet ▸ ho, hown⟩

theorem refl (s : Sheet) : Follows new s { sheet := s } := quiet (Nat.le_refl _) rfl rfl rfl rfl rfl

theorem issueToken (s : Sheet) : Follows new s { sheet := s.issueToken } :=
  quiet (Nat.le_succ _) rfl rfl rfl rfl rfl

/-- A text for an outlet that the sheet had or may attach. -/
theorem sent {o : Outlet} (h : Follows new s { sheet := s' }) (hs : s'.outlet?.isSome = true)
    (ho : ∀ t, o = .attached t → s.outlet? = some o ∨ new t) (text : String) :
    Follows new s (s'.sent text o) where
  token := by rw [Sheet.sent, Sheet.received_tracker]; exact h.token
  tokens := fun _ hn => absurd hn List.not_mem_nil
  autoTarget := by rw [Sheet.sent, Sheet.received_autoTarget]; exact h.autoTarget
  debug := by cases o <;> exact h.debug
  delivery := by rw [Sheet.sent, Sheet.received_delivery]; exact h.delivery
  attached := by rw [Sheet.sent, Sheet.received_outlet]; exact h.attached
  writes := fun t ht => by
    cases o with
    | own => exact absurd ht List.not_mem_nil
    | attached u =>
      obtain rfl := List.mem_singleton.mp ht
      exact ho u rfl
  own := fun hn => by
    rw [Sheet.sent, Sheet.received_outlet] at hn
    rw [hn] at hs
    cases hs

theorem flushedTo {o : Outlet} (ho : ∀ t, o = .attached t → s.outlet? = some o ∨ new t) :
    Follows new s { sheet := s.flushedTo o } where
  token := Nat.le_refl _
  tokens := fun _ hn => absurd hn List.not_mem_nil
  autoTarget := rfl
  debug := rfl
  delivery := rfl
  attached := fun t ht => by
    obtain rfl : o = .attached t := Option.some.inj ht
    exact ho t rfl
  writes := fun _ ht => absurd ht List.not_mem_nil
  own := fun hn => by cases hn

theorem flushEffect (s : Sheet) : Follows new s s.flushEffect := by
  unfold Sheet.flushEffect
  split
  · exact refl s
  · next o ho =>
    -- the next outlet is the present one or the sheet's own target
    have hnext : ∀ t, o = .attached t → s.outlet? = some o ∨ new t := by
      rintro t rfl
      unfold Sheet.nextOutlet? at ho
      cases hs : s.outlet? with
      | some o' => rw [hs, Option.some_or] at ho; exact .inl ho
      | none => rw [hs, Option.none_or] at ho; split at ho <;> cases ho
    exact (flushedTo hnext).sent rfl hnext s.css

theorem updateEffect (s : Sheet) : Follows new s s.updateEffect := by
  unfold Sheet.updateEffect
  split
  · split
    · exact (issueToken s).andThen (flushEffect _)
    · refine { issueToken s with tokens := fun n hn => ?_, writes := fun _ ht => absurd ht List.not_mem_nil }
      obtain rfl := List.mem_singleton.mp hn
      exact ⟨Nat.lt_succ_self _, Nat.le_refl _⟩
    · exact issueToken s
  · exact refl s

theorem registerEffect (s : Sheet) (result : Except StyleError (Answer × Registry)) :
    Follows new s (s.registerEffect result).2 := by
  cases result with
  | error e => exact refl s
  | ok r =>
    have hstored : Follows new s { sheet := { s with registry := r.2 } } :=
      quiet (Nat.le_refl _) rfl rfl rfl rfl rfl
    exact hstored.andThen (updateEffect _)

theorem stylesheetEffect (debug : Bool) (s : Sheet) (classes : List (String × String))
    (named : List (String × Description)) : Follows new s (s.stylesheetEffect debug classes named).2 := by
  induction named generalizing s classes with
  | nil => exact refl s
  | cons entry rest ih =>
    obtain ⟨name, d⟩ := entry
    have hstyle : Follows new s (s.styleEffect debug [some (d.withDebugName name)]).2 := registerEffect s _
    unfold Sheet.stylesheetEffect
    split
    · next c e he =>
      rw [he] at hstyle
      exact hstyle.andThen (ih e.sheet _)
    · exact hstyle

theorem setTargetEffect (s : Sheet) {target : Nat} (hn : new target) :
    Follows new s (s.setTargetEffect target) := by
  have hnew : ∀ {o : Option Outlet} t, Outlet.attached target = .attached t →
      o = some (.attached target) ∨ new t := by
    rintro o t ⟨⟩
    exact .inr hn
  have hattached : Follows new s { sheet := s.issueToken.flushedTo (.attached target) } :=
    (issueToken s).andThen (flushedTo hnew)
  unfold Sheet.setTargetEffect
  cases ho : s.outlet? with
  | none => exact hattached.andThen ((refl _).sent rfl hnew s.css)
  | some o =>
    have hcleared := hattached.sent rfl (fun _ _ => .inl ho) ""
    exact hcleared.andThen ((refl _).sent (by cases o <;> rfl) hnew s.css)

theorem reinitEffect (s : Sheet) : Follows new s s.reinitEffect := by
  have hfresh : Follows new s { sheet := s.reinit } := quiet (Nat.le_succ _) rfl rfl rfl rfl rfl
  unfold Sheet.reinitEffect
  split
  · exact hfresh
  · next o ho => exact hfresh.sent (Option.isSome_of_mem ho) (fun _ _ => .inl ho) ""

/-- Every operation follows its sheet. -/
theorem effect (debug : Bool) (s : Sheet) (c : Call) :
    Follows (fun t => c = .setTarget t) s (s.effect debug c).2 := by
  cases c with
  | style | cssRule | keyframes | fontFace => exact registerEffect s _
  | cssRaw css =>
    simp only [Sheet.effect]
    split
    · exact refl s
    · have hmarked : Follows (fun t => Call.cssRaw css = .setTarget t) s
          { sheet := { s with raw := s.raw ++ css, tracker := s.tracker.markRaw } } :=
        quiet (Nat.le_refl _) rfl rfl rfl rfl rfl
      exact hmarked.andThen (updateEffect _)
  | stylesheet named => exact stylesheetEffect debug s [] named
  | setTarget target => exact setTargetEffect s rfl
  | forceRender => exact (issueToken s).andThen (flushEffect _)
  | reinit => exact reinitEffect s

end Effect.Follows

namespace World

variable {w : World} {id : Nat} {s : Sheet}

/-- The debug mode of a sheet that does not set it. -/
def debugDefault (w : World) : Bool := w.detector.resolve w.environment

/-- The world after an effect on a sheet. -/
def apply (w : World) (id : Nat) (e : Effect) : World :=
  { w with
    sheets := w.sheets.set id e.sheet
    targets := e.writes.foldl (fun ts t => ts.modify t.1 (·.write t.2)) w.targets
    queue := w.queue ++ e.tokens.map (FlushTask.mk id) }

@[simp] theorem apply_debugDefault (e : Effect) : (w.apply id e).debugDefault = w.debugDefault := rfl

theorem apply_sheet (hs : w.sheets[id]? = some s) (e : Effect) : (w.apply id e).sheets[id]? = some e.sheet :=
  List.getElem?_set_self (List.getElem?_eq_some_iff.mp hs).1

theorem apply_sheet_ne {j : Nat} (h : j ≠ id) (e : Effect) : (w.apply id e).sheets[j]? = w.sheets[j]? :=
  List.getElem?_set_ne h.symm

theorem apply_apply (e next : Effect) : (w.apply id e).apply id next = w.apply id (e.andThen next) := by
  simp [apply, Effect.andThen, List.set_set, List.foldl_append, List.append_assoc]

theorem apply_self (hs : w.sheets[id]? = some s) : w.apply id { sheet := s } = w := by
  obtain ⟨h, rfl⟩ := List.getElem?_eq_some_iff.mp hs
  simp [apply]

theorem modifySheet_eq_apply (hs : w.sheets[id]? = some s) (f : Sheet → Sheet) :
    w.modifySheet id f = w.apply id { sheet := f s } := by
  have : Inhabited Sheet := ⟨s⟩
  simp [modifySheet, apply, List.modify_eq_set, hs]

theorem writeOutlet_eq_apply (hs : w.sheets[id]? = some s) (text : String) (o : Outlet) :
    w.writeOutlet id text o = w.apply id (s.sent text o) := by
  cases o with
  | own => exact modifySheet_eq_apply hs _
  | attached t =>
    obtain ⟨h, rfl⟩ := List.getElem?_eq_some_iff.mp hs
    simp [writeOutlet, writeTarget, apply, Sheet.sent, Sheet.received, Outlet.writes]

theorem flush_eq_apply (hs : w.sheets[id]? = some s) : w.flush id = w.apply id s.flushEffect := by
  simp only [flush, hs, Sheet.flushEffect]
  cases s.nextOutlet? with
  | none => exact (apply_self hs).symm
  | some o =>
    show (w.modifySheet id (·.flushedTo o)).writeOutlet id s.css o = _
    rw [modifySheet_eq_apply hs, writeOutlet_eq_apply (apply_sheet hs _), apply_apply]
    rfl

theorem flush_of_missing (hs : w.sheets[id]? = none) : w.flush id = w := by simp only [flush, hs]

/-- A task with the current token of a sheet that has a handle flushes; any other does nothing. -/
theorem runTask_of_current (task : FlushTask) (hs : w.sheets[task.sheet]? = some s)
    (ha : w.isAlive task.sheet = true) (ht : task.token = s.tracker.token) :
    w.runTask task = w.apply task.sheet s.flushEffect := by
  have hc : w.isCurrent task = true := by simp [isCurrent, hs, ht]
  simp only [runTask, ha, hc, Bool.and_self, if_true]
  exact flush_eq_apply hs

theorem runTask_of_stale (task : FlushTask) (hs : w.sheets[task.sheet]? = some s)
    (ht : task.token ≠ s.tracker.token) : w.runTask task = w := by
  have hc : w.isCurrent task = false := by simp [isCurrent, hs, Ne.symm ht]
  simp only [runTask, hc, Bool.and_false, Bool.false_eq_true, if_false]

theorem runTask_of_dropped (task : FlushTask) (ha : w.isAlive task.sheet = false) : w.runTask task = w := by
  simp only [runTask, ha, Bool.false_and, Bool.false_eq_true, if_false]

theorem runTask_of_none (task : FlushTask) (hs : w.sheets[task.sheet]? = none) : w.runTask task = w := by
  simp [runTask, isCurrent, hs]

theorem styleUpdated_eq_apply (hs : w.sheets[id]? = some s) (ha : w.isAlive id = true) :
    w.styleUpdated id = w.apply id s.updateEffect := by
  simp only [styleUpdated, hs, Sheet.updateEffect]
  split
  · have hissued : w.modifySheet id Sheet.issueToken = w.apply id { sheet := s.issueToken } :=
      modifySheet_eq_apply hs _
    rw [hissued]
    cases s.delivery with
    | immediate =>
      have hrun := runTask_of_current ⟨id, s.tracker.token + 1⟩ (apply_sheet hs { sheet := s.issueToken }) ha rfl
      rw [schedule, hrun, apply_apply]
      rfl
    | onTick => simp [schedule, apply]
    | unattended => rfl
  · exact (apply_self hs).symm

theorem record_eq_apply (hs : w.sheets[id]? = some s) (ha : w.isAlive id = true)
    (result : Except StyleError (Answer × Registry)) :
    w.record id result = ((s.registerEffect result).1, w.apply id (s.registerEffect result).2) := by
  cases result with
  | error e => exact congrArg _ (apply_self hs).symm
  | ok r =>
    have hstored : w.modifySheet id (fun s => { s with registry := r.2 }) = _ := modifySheet_eq_apply hs _
    simp only [record, Sheet.registerEffect, hstored]
    rw [styleUpdated_eq_apply (apply_sheet hs _) ha, apply_apply]
    rfl

theorem style_eq_apply (hs : w.sheets[id]? = some s) (ha : w.isAlive id = true)
    (ds : List (Option Description)) :
    w.style id s ds =
      ((s.styleEffect w.debugDefault ds).1, w.apply id (s.styleEffect w.debugDefault ds).2) := by
  rw [style_eq_record hs]
  exact record_eq_apply hs ha _

theorem stylesheet_eq_apply (hs : w.sheets[id]? = some s) (ha : w.isAlive id = true)
    (classes : List (String × String)) (named : List (String × Description)) :
    w.stylesheet id classes named =
      ((s.stylesheetEffect w.debugDefault classes named).1,
        w.apply id (s.stylesheetEffect w.debugDefault classes named).2) := by
  induction named generalizing w s classes with
  | nil => exact congrArg _ (apply_self hs).symm
  | cons entry rest ih =>
    obtain ⟨name, d⟩ := entry
    simp only [stylesheet, hs, style_eq_apply hs ha, Sheet.stylesheetEffect]
    obtain ⟨answer, e⟩ := s.styleEffect w.debugDefault [some (d.withDebugName name)]
    split
    · next c w₁ he =>
      obtain ⟨rfl, rfl⟩ := Prod.mk.inj he
      simp only
      rw [ih (apply_sheet hs e) ha, apply_debugDefault, apply_apply]
    · next hno =>
      split
      · next c e' he =>
        obtain ⟨rfl, rfl⟩ := Prod.mk.inj he
        exact absurd rfl (hno c _)
      · rfl

theorem setTarget_eq_apply (hs : w.sheets[id]? = some s) (target : Nat) :
    w.setTarget id s target = w.apply id (s.setTargetEffect target) := by
  have hattached : w.modifySheet id (fun s => s.issueToken.flushedTo (.attached target)) = _ :=
    modifySheet_eq_apply hs _
  simp only [setTarget, Sheet.setTargetEffect, hattached]
  cases s.outlet? with
  | none =>
    simp only
    rw [writeOutlet_eq_apply (apply_sheet hs _), apply_apply]
  | some o =>
    simp only
    rw [writeOutlet_eq_apply (apply_sheet hs _), apply_apply, writeOutlet_eq_apply (apply_sheet hs _), apply_apply]
    rfl

theorem reinit_eq_apply (hs : w.sheets[id]? = some s) : w.reinit id s = w.apply id s.reinitEffect := by
  have hfresh : w.modifySheet id Sheet.reinit = _ := modifySheet_eq_apply hs _
  simp only [reinit, Sheet.reinitEffect, hfresh]
  cases s.outlet? with
  | none => rfl
  | some o =>
    simp only
    rw [writeOutlet_eq_apply (apply_sheet hs _), apply_apply]
    rfl

/-- An operation on a sheet is local: what it answers and what it does is told by the sheet. -/
theorem perform_eq_apply (hs : w.sheets[id]? = some s) (ha : w.isAlive id = true) (c : Call) :
    w.perform id s c = ((s.effect w.debugDefault c).1, w.apply id (s.effect w.debugDefault c).2) := by
  cases c with
  | style ds => exact style_eq_apply hs ha ds
  | cssRule selector ds => rw [perform_cssRule hs]; exact record_eq_apply hs ha _
  | keyframes k => rw [perform_keyframes hs]; exact record_eq_apply hs ha _
  | fontFace ds => rw [perform_fontFace hs]; exact record_eq_apply hs ha _
  | cssRaw css =>
    simp only [perform, Sheet.effect]
    split
    · exact congrArg _ (apply_self hs).symm
    · have hmarked : w.modifySheet id
          (fun s => { s with raw := s.raw ++ css, tracker := s.tracker.markRaw }) = _ :=
        modifySheet_eq_apply hs _
      rw [hmarked, styleUpdated_eq_apply (apply_sheet hs _) ha, apply_apply]
      rfl
  | stylesheet named => exact stylesheet_eq_apply hs ha [] named
  | setTarget target => exact congrArg _ (setTarget_eq_apply hs target)
  | forceRender =>
    have hissued : w.modifySheet id Sheet.issueToken = _ := modifySheet_eq_apply hs _
    simp only [perform, Sheet.effect, hissued]
    rw [flush_eq_apply (apply_sheet hs _), apply_apply]
    rfl
  | reinit => exact congrArg _ (reinit_eq_apply hs)

theorem call_eq_apply {handle : Nat} (hh : w.sheetOf? handle = some id) (hs : w.sheets[id]? = some s) (c : Call) :
    w.call handle c = ((s.effect w.debugDefault c).1, w.apply id (s.effect w.debugDefault c).2) := by
  simp only [call, hh, hs]
  exact perform_eq_apply hs (isAlive_of_sheetOf? hh) c

/-- An operation through a handle without a sheet does nothing. -/
theorem call_of_none {handle : Nat} (h : (w.sheetOf? handle).bind (w.sheets[·]?) = none) (c : Call) :
    w.call handle c = (.ok .done, w) := by
  unfold call
  cases hh : w.sheetOf? handle with
  | none => rfl
  | some i =>
    rw [hh] at h
    have hs : w.sheets[i]? = none := h
    simp only [hs]

theorem call_cases (w : World) (handle : Nat) (c : Call) :
    w.call handle c = (.ok .done, w) ∨ ∃ i s, w.sheetOf? handle = some i ∧ w.sheets[i]? = some s ∧
      w.call handle c = ((s.effect w.debugDefault c).1, w.apply i (s.effect w.debugDefault c).2) := by
  cases hh : w.sheetOf? handle with
  | none => exact .inl (call_of_none (by rw [hh]; rfl) c)
  | some i =>
    cases hs : w.sheets[i]? with
    | none => exact .inl (call_of_none (by rw [hh]; exact hs) c)
    | some s => exact .inr ⟨i, s, rfl, hs, call_eq_apply hh hs c⟩

/-! ## Tasks -/

/-- A task either does nothing or flushes its sheet. -/
theorem runTask_cases (w : World) (task : FlushTask) :
    w.runTask task = w ∨ ∃ s, w.sheets[task.sheet]? = some s ∧ w.isAlive task.sheet = true ∧
      task.token = s.tracker.token ∧ w.runTask task = w.apply task.sheet s.flushEffect := by
  cases ha : w.isAlive task.sheet with
  | false => exact .inl (runTask_of_dropped task ha)
  | true =>
    cases hs : w.sheets[task.sheet]? with
    | none => exact .inl (runTask_of_none task hs)
    | some s =>
      by_cases ht : task.token = s.tracker.token
      · exact .inr ⟨s, rfl, rfl, ht, runTask_of_current task hs ha ht⟩
      · exact .inl (runTask_of_stale task hs ht)

/-- What flushes keep, tasks keep. -/
theorem foldl_runTask_induction {P : World → Prop}
    (hflush : ∀ w id s, P w → w.sheets[id]? = some s → w.isAlive id = true → P (w.apply id s.flushEffect))
    (tasks : List FlushTask) {w : World} (hw : P w) : P (tasks.foldl runTask w) := by
  induction tasks generalizing w with
  | nil => exact hw
  | cons t rest ih =>
    refine ih ?_
    rcases runTask_cases w t with h | ⟨s, hs, ha, -, h⟩
    · rwa [h]
    · rw [h]
      exact hflush w t.sheet s hw hs ha

end World

end StyleEngine
