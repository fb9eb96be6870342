import Mathlib.Data.List.DropRight
import StyleEngine.Proofs.Sheet.Effect

/-!
# The text of a sheet

A sheet says no more than a registry with raw texts in front of it, to which the operations are applied
without outlets, tokens, queues and schedulers (`Content`). Effects keep this relation whatever is flushed
(`Sheet.Holds.effect`), so it is kept by every step of a world (`holds_step`, `holds_of_input`), and
attachments, forced renders, ticks and clones cannot be seen in names, errors, versions and texts.
-/

namespace StyleEngine

/-- Operations that bring the text to a target and do not change it. -/
def Call.isPlumbing : Call → Bool
  | .setTarget _ | .forceRender => true
  | _ => false

/-- What the text of a sheet depends on. -/
inductive Input where
  | call (c : Call)
  | detect (mode : DebugMode)
  | setEnvironment (environment : Environment)

def Input.isReinit : Input → Bool
  | .call .reinit => true
  | _ => false

/-- The raw text of an input, if it adds any. -/
def Input.rawText? : Input → Option String
  | .call (.cssRaw css) => if css.isEmpty then none else some css
  | _ => none

/-- The answer to an input, with the version and the text after it. -/
structure Report where
  answer : Except StyleError Answer
  version : Nat
  css : String

/-- A bare registry, and the raw texts that are not empty. -/
structure Content where
  registry : Registry := {}
  raws : List String := []

namespace Content

def css (c : Content) : String := String.join c.raws ++ c.registry.css

def version (c : Content) : Nat := c.registry.version

def register (c : Content) : Except StyleError (Answer × Registry) → Except StyleError Answer × Content
  | .error e => (.error e, c)
  | .ok (answer, registry) => (.ok answer, { c with registry })

def stylesheet (debug : Bool) (c : Content) (classes : List (String × String)) :
    List (String × Description) → Except StyleError Answer × Content
  | [] => (.ok (.names classes), c)
  | (name, d) :: rest =>
    match c.registry.registerStyle (Description.extend [some (d.withDebugName name)]) debug with
    | .error e => (.error e, c)
    | .ok (generated, registry) =>
      stylesheet debug { c with registry } (Keyed.put name generated classes) rest

def perform (debug : Bool) (c : Content) : Call → Except StyleError Answer × Content
  | .style ds =>
    c.register ((c.registry.registerStyle (Description.extend ds) debug).map
      fun (name, registry) => (.name name, registry))
  | .cssRule selector ds =>
    c.register ((c.registry.registerRule selector (Description.extend ds)).map (.done, ·))
  | .keyframes k =>
    c.register ((c.registry.registerKeyframes k debug).map fun (name, registry) => (.name name, registry))
  | .fontFace ds => c.register ((c.registry.registerFaces ds).map (.done, ·))
  | .cssRaw css => (.ok .done, if css.isEmpty then c else { c with raws := c.raws ++ [css] })
  | .stylesheet named => c.stylesheet debug [] named
  | .reinit => (.ok .done, {})
  | .setTarget _ | .forceRender => (.ok .done, c)

end Content

/-- A content and what debug mode depends on: all that is left of a world. -/
structure Bare where
  content : Content := {}
  detector : DebugMode := .auto
  environment : Environment := []

namespace Bare

/-- An input, where `debug?` is the debug mode if the detector is not asked. -/
def step (debug? : Option Bool) (b : Bare) : Input → Except StyleError Answer × Bare
  | .call x =>
    let (answer, content) := b.content.perform (debug?.getD (b.detector.resolve b.environment)) x
    (answer, { b with content })
  | .detect mode => (.ok .done, { b with detector := mode })
  | .setEnvironment environment => (.ok .done, { b with environment })

def run (debug? : Option Bool) (b : Bare) (inputs : List Input) : Bare :=
  inputs.foldl (fun b x => (b.step debug? x).2) b

def reports (debug? : Option Bool) (b : Bare) : List Input → List Report
  | [] => []
  | x :: rest =>
    let (answer, next) := b.step debug? x
    ⟨answer, next.content.version, next.content.css⟩ :: next.reports debug? rest

end Bare

/-! ## Raw texts -/

namespace Content

variable {c : Content}

theorem register_raws (result : Except StyleError (Answer × Registry)) : (c.register result).2.raws = c.raws := by
  cases result <;> rfl

theorem stylesheet_raws (debug : Bool) (classes : List (String × String)) (named : List (String × Description)) :
    (c.stylesheet debug classes named).2.raws = c.raws := by
  induction named generalizing c classes with
  | nil => rfl
  | cons entry rest ih =>
    unfold stylesheet
    split
    · rfl
    · exact ih _

end Content

namespace Bare

variable {b : Bare}

theorem step_raws (debug? : Option Bool) (x : Input) :
    (b.step debug? x).2.content.raws = if x.isReinit then [] else b.content.raws ++ x.rawText?.toList := by
  have hsame : ∀ raws : List String, raws = b.content.raws → raws = b.content.raws ++ [] :=
    fun raws h => h.trans (List.append_nil _).symm
  cases x with
  | detect | setEnvironment => exact hsame _ rfl
  | call x =>
    cases x with
    | style | cssRule | keyframes | fontFace => exact hsame _ (Content.register_raws _)
    | stylesheet named => exact hsame _ (Content.stylesheet_raws _ [] named)
    | setTarget | forceRender => exact hsame _ rfl
    | reinit => rfl
    | cssRaw css =>
      simp only [step, Content.perform, Input.isReinit, Input.rawText?]
      split <;> simp

/-- The raw texts are those since the last `reinit`. -/
theorem run_raws (debug? : Option Bool) (detector : DebugMode) (environment : Environment) (inputs : List Input) :
    (run debug? { detector, environment } inputs).content.raws =
      (inputs.rtakeWhile (!·.isReinit)).filterMap Input.rawText? := by
  induction inputs using List.reverseRecOn with
  | nil => rfl
  | append_singleton earlier x ih =>
    have hrun : run debug? { detector, environment } (earlier ++ [x]) =
        ((run debug? { detector, environment } earlier).step debug? x).2 := by
      simp only [run, List.foldl_append, List.foldl_cons, List.foldl_nil]
    rw [hrun, step_raws]
    cases hx : x.isReinit with
    | true => rw [List.rtakeWhile_concat_neg _ _ _ (by simp [hx])]; rfl
    | false =>
      rw [List.rtakeWhile_concat_pos _ _ _ (by simp [hx]), List.filterMap_append, ← ih]
      cases h : x.rawText? <;> simp [h]

end Bare

/-! ## One sheet -/

/-- The sheet has the rules and the raw text of the content. -/
structure Sheet.Holds (s : Sheet) (c : Content) : Prop where
  registry : s.registry = c.registry
  raw : s.raw = String.join c.raws

namespace Sheet.Holds

variable {s : Sheet} {c : Content}

theorem css (h : s.Holds c) : s.css = c.css := by
  rw [Sheet.css, Content.css, h.registry, h.raw]

theorem version (h : s.Holds c) : s.version = c.version := congrArg Registry.version h.registry

theorem issueToken (h : s.Holds c) : s.issueToken.Holds c := ⟨h.registry, h.raw⟩

theorem flushedTo (h : s.Holds c) (o : Outlet) : (s.flushedTo o).Holds c := ⟨h.registry, h.raw⟩

theorem sent (h : s.Holds c) (text : String) (o : Outlet) : (s.sent text o).sheet.Holds c :=
  ⟨(s.received_registry text o).trans h.registry, (s.received_raw text o).trans h.raw⟩

theorem flushEffect (h : s.Holds c) : s.flushEffect.sheet.Holds c := by
  unfold Sheet.flushEffect
  split
  · exact h
  · exact (h.flushedTo _).sent _ _

theorem updateEffect (h : s.Holds c) : s.updateEffect.sheet.Holds c := by
  unfold Sheet.updateEffect
  split
  · split
    · exact h.issueToken.flushEffect
    · exact h.issueToken
    · exact h.issueToken
  · exact h

theorem registerEffect (h : s.Holds c) (result : Except StyleError (Answer × Registry)) :
    (s.registerEffect result).1 = (c.register result).1 ∧
      (s.registerEffect result).2.sheet.Holds (c.register result).2 := by
  cases result with
  | error e => exact ⟨rfl, h⟩
  | ok r =>
    have hstored : ({ s with registry := r.2 } : Sheet).Holds { c with registry := r.2 } := ⟨rfl, h.raw⟩
    exact ⟨rfl, hstored.updateEffect⟩

theorem stylesheetEffect (h : s.Holds c) {debug mode : Bool} (hmode : s.debugMode debug = mode)
    (classes : List (String × String)) (named : List (String × Description)) :
    (s.stylesheetEffect debug classes named).1 = (c.stylesheet mode classes named).1 ∧
      (s.stylesheetEffect debug classes named).2.sheet.Holds (c.stylesheet mode classes named).2 := by
  induction named generalizing s c classes with
  | nil => exact ⟨rfl, h⟩
  | cons entry rest ih =>
    obtain ⟨name, d⟩ := entry
    simp only [Sheet.stylesheetEffect, Content.stylesheet, Sheet.styleEffect, h.registry, hmode]
    cases c.registry.registerStyle (Description.extend [some (d.withDebugName name)]) mode with
    | error e => exact ⟨rfl, h⟩
    | ok r =>
      obtain ⟨generated, registry⟩ := r
      have hstored : ({ s with registry } : Sheet).Holds { c with registry } := ⟨rfl, h.raw⟩
      have hf : Effect.Follows (fun _ => False) { s with registry } _ := .updateEffect { s with registry }
      refine ih hstored.updateEffect ?_ _
      rw [Sheet.debugMode, hf.debug]
      exact hmode

theorem setTargetEffect (h : s.Holds c) (target : Nat) : (s.setTargetEffect target).sheet.Holds c := by
  have hattached := h.issueToken.flushedTo (.attached target)
  unfold Sheet.setTargetEffect
  cases s.outlet? with
  | none => exact hattached.sent s.css (.attached target)
  | some o => exact (hattached.sent "" o).sent s.css (.attached target)

theorem reinitEffect (s : Sheet) : s.reinitEffect.sheet.Holds {} := by
  have hfresh : s.reinit.Holds {} := ⟨rfl, rfl⟩
  unfold Sheet.reinitEffect
  split
  · exact hfresh
  · exact hfresh.sent _ _

/-- Every operation answers as the content does, and keeps the relation. -/
theorem effect (h : s.Holds c) (debug : Bool) (x : Call) :
    (s.effect debug x).1 = (c.perform (s.debugMode debug) x).1 ∧
      (s.effect debug x).2.sheet.Holds (c.perform (s.debugMode debug) x).2 := by
  cases x with
  | style | cssRule | keyframes | fontFace =>
    simp only [Content.perform, ← h.registry]
    exact h.registerEffect _
  | cssRaw css =>
    simp only [Sheet.effect, Content.perform]
    split
    · exact ⟨rfl, h⟩
    · have hmarked : ({ s with raw := s.raw ++ css, tracker := s.tracker.markRaw } : Sheet).Holds
          { c with raws := c.raws ++ [css] } := by
        refine ⟨h.registry, ?_⟩
        rw [String.join_append, ← h.raw]
        simp [String.join]
      exact ⟨rfl, hmarked.updateEffect⟩
  | stylesheet named => exact h.stylesheetEffect rfl [] named
  | setTarget target => exact ⟨rfl, h.setTargetEffect target⟩
  | forceRender => exact ⟨rfl, h.issueToken.flushEffect⟩
  | reinit => exact ⟨rfl, reinitEffect s⟩

end Sheet.Holds

namespace World

variable {w : World} {id : Nat} {debug? : Option Bool} {b : Bare} {s : Sheet}

/-! ## Inputs of a run -/

/-- What a step is to the text of the sheet `id`. Operations through its handles count, whatever the handle,
but for plumbing. -/
def input? (id : Nat) (w : World) : Step → Option Input
  | .call handle x => if w.sheetOf? handle = some id ∧ x.isPlumbing = false then some (.call x) else none
  | .detect mode => some (.detect mode)
  | .setEnvironment environment => some (.setEnvironment environment)
  | .tick | .write _ _ | .clone _ | .drop _ => none

def inputs (id : Nat) (w : World) : List Step → List Input
  | [] => []
  | x :: rest => (w.input? id x).toList ++ inputs id (w.step x).2 rest

/-- What can be seen of the sheet after a step that is an input. -/
def report? (id : Nat) (w : World) (x : Step) : Option Report :=
  (w.input? id x).bind fun _ =>
    ((w.step x).2.sheets[id]?).map fun s => ⟨(w.step x).1, s.version, s.css⟩

def reports (id : Nat) (w : World) : List Step → List Report
  | [] => []
  | x :: rest => (w.report? id x).toList ++ reports id (w.step x).2 rest

/-! ## Steps -/

/-- The sheet `id` holds the bare content. -/
structure Holds (id : Nat) (debug? : Option Bool) (w : World) (b : Bare) : Prop where
  sheet : ∃ s, w.sheets[id]? = some s ∧ s.debug? = debug? ∧ s.Holds b.content
  detector : w.detector = b.detector
  environment : w.environment = b.environment

/-- An effect on the sheet. -/
theorem Holds.apply {content : Content} {new : Nat → Prop} {e : Effect} (h : Holds id debug? w b)
    (hs : w.sheets[id]? = some s) (he : e.Follows new s) (hc : e.sheet.Holds content) :
    Holds id debug? (w.apply id e) { b with content } where
  sheet := by
    obtain ⟨s', hs', hdebug, -⟩ := h.sheet
    obtain rfl : s = s' := Option.some.inj (hs.symm.trans hs')
    exact ⟨e.sheet, apply_sheet hs e, he.debug.trans hdebug, hc⟩
  detector := h.detector
  environment := h.environment

/-- An effect on another sheet. -/
theorem Holds.apply_ne {j : Nat} (h : Holds id debug? w b) (hj : id ≠ j) (e : Effect) :
    Holds id debug? (w.apply j e) b where
  sheet := by
    obtain ⟨s, hs, hrest⟩ := h.sheet
    exact ⟨s, (apply_sheet_ne hj e).trans hs, hrest⟩
  detector := h.detector
  environment := h.environment

theorem holds_tick (h : Holds id debug? w b) : Holds id debug? w.tick.2 b := by
  rw [tick_eq]
  refine foldl_runTask_induction (P := fun v => Holds id debug? v b) (fun v i r hv hr _ => ?_) w.queue
    ⟨h.sheet, h.detector, h.environment⟩
  by_cases hi : id = i
  · subst hi
    obtain ⟨s, hs, -, hc⟩ := hv.sheet
    obtain rfl : r = s := Option.some.inj (hr.symm.trans hs)
    have he : r.flushEffect.Follows (fun _ => False) r := .flushEffect r
    exact hv.apply hs he hc.flushEffect
  · exact hv.apply_ne hi _

/-- An operation through a handle of the sheet, plumbing or not. -/
theorem holds_call (h : Holds id debug? w b) {handle : Nat} (hh : w.sheetOf? handle = some id) (x : Call) :
    (w.call handle x).1 = (b.step debug? (.call x)).1 ∧
      Holds id debug? (w.call handle x).2 (b.step debug? (.call x)).2 := by
  obtain ⟨s, hs, hdebug, hc⟩ := h.sheet
  have hmode : s.debugMode w.debugDefault = debug?.getD (b.detector.resolve b.environment) := by
    rw [Sheet.debugMode, hdebug, debugDefault, h.detector, h.environment]
  obtain ⟨hanswer, hcontent⟩ := hc.effect w.debugDefault x
  rw [hmode] at hanswer hcontent
  rw [call_eq_apply hh hs]
  exact ⟨hanswer, h.apply hs (.effect _ s x) hcontent⟩

/-- The step lemma for a step that is not an input. -/
theorem holds_step (h : Holds id debug? w b) {x : Step} (hx : w.input? id x = none) :
    Holds id debug? (w.step x).2 b := by
  cases x with
  | detect | setEnvironment => cases hx
  | write | clone | drop => exact ⟨h.sheet, h.detector, h.environment⟩
  | tick => exact holds_tick h
  | call handle x =>
    show Holds id debug? (w.call handle x).2 b
    by_cases hh : w.sheetOf? handle = some id
    · have hplumbing : x.isPlumbing = true := by simpa [input?, hh] using hx
      have hstep : (b.step debug? (.call x)).2 = b := by
        cases x with
        | setTarget | forceRender => rfl
        | style | cssRule | keyframes | fontFace | cssRaw | stylesheet | reinit => cases hplumbing
      rw [← hstep]
      exact (holds_call h hh x).2
    · rcases call_cases w handle x with hc | ⟨i, r, hw, -, hc⟩
      · rwa [hc]
      · rw [hc]
        refine h.apply_ne (fun hi => hh ?_) _
        rw [hw, hi]

/-- The step lemma for an input. -/
theorem holds_of_input (h : Holds id debug? w b) {x : Step} {i : Input} (hx : w.input? id x = some i) :
    (w.step x).1 = (b.step debug? i).1 ∧ Holds id debug? (w.step x).2 (b.step debug? i).2 := by
  cases x with
  | tick | write | clone | drop => cases hx
  | detect mode =>
    obtain rfl := Option.some.inj hx
    exact ⟨rfl, h.sheet, rfl, h.environment⟩
  | setEnvironment environment =>
    obtain rfl := Option.some.inj hx
    exact ⟨rfl, h.sheet, h.detector, rfl⟩
  | call handle x =>
    obtain ⟨⟨hh, -⟩, rfl⟩ := Option.ite_some_none_eq_some.mp hx
    exact holds_call h hh x

/-- The run lemma. -/
theorem holds_run (h : Holds id debug? w b) (steps : List Step) :
    w.reports id steps = b.reports debug? (w.inputs id steps) ∧
      Holds id debug? (w.run steps).2 (b.run debug? (w.inputs id steps)) := by
  induction steps generalizing w b with
  | nil => exact ⟨rfl, h⟩
  | cons x rest ih =>
    cases hx : w.input? id x with
    | none =>
      obtain ⟨hreports, hworld⟩ := ih (holds_step h hx)
      simp only [reports, report?, inputs, hx, Option.bind_none, Option.toList_none, List.nil_append]
      exact ⟨hreports, hworld⟩
    | some i =>
      obtain ⟨hanswer, h'⟩ := holds_of_input h hx
      obtain ⟨hreports, hworld⟩ := ih h'
      obtain ⟨s, hs, -, hc⟩ := h'.sheet
      simp only [reports, report?, inputs, hx, Option.bind_some, Option.toList_some, List.cons_append,
        List.nil_append, Bare.reports, hs, Option.map_some, hreports, hanswer, hc.version, hc.css]
      exact ⟨trivial, hworld⟩

theorem holds_start {configs : List SheetConfig} {config : SheetConfig} (targets : Nat) (detector : DebugMode)
    (environment : Environment) (hc : configs[id]? = some config) :
    Holds id config.debug? { start configs targets with detector, environment } { detector, environment } :=
  ⟨⟨Sheet.ofConfig config, by simp [start, hc], rfl, ⟨rfl, rfl⟩⟩, rfl, rfl⟩

/-- The text of a sheet does not depend on how and when it is brought to a target. Two sheets with the same
debug setting that receive the same inputs, in whatever worlds, on whatever schedulers and between whatever
other steps, report the same after each of them: what a bare registry with raw texts in front reports. -/
theorem text_ignores_plumbing {configs configs' : List SheetConfig} {config config' : SheetConfig} {id' : Nat}
    (targets targets' : Nat) (detector : DebugMode) (environment : Environment) (steps steps' : List Step)
    (hc : configs[id]? = some config) (hc' : configs'[id']? = some config') (hdebug : config'.debug? = config.debug?)
    (hsame : ({ start configs' targets' with detector, environment } : World).inputs id' steps' =
      ({ start configs targets with detector, environment } : World).inputs id steps) :
    let w : World := { start configs targets with detector, environment }
    let w' : World := { start configs' targets' with detector, environment }
    let inputs := w.inputs id steps
    let bare : Bare := { detector, environment }
    w.reports id steps = bare.reports config.debug? inputs ∧ w'.reports id' steps' = w.reports id steps ∧
      ∃ s s', (w.run steps).2.sheets[id]? = some s ∧ (w'.run steps').2.sheets[id']? = some s' ∧
        s'.version = s.version ∧ s'.css = s.css ∧
        s.css = String.join ((inputs.rtakeWhile (!·.isReinit)).filterMap Input.rawText?) ++
          (bare.run config.debug? inputs).content.registry.css := by
  intro w w' inputs bare
  obtain ⟨hreports, hworld⟩ := holds_run (holds_start targets detector environment hc) steps
  obtain ⟨hreports', hworld'⟩ := holds_run (holds_start targets' detector environment hc') steps'
  rw [hsame, hdebug] at hreports' hworld'
  obtain ⟨s, hs, -, h⟩ := hworld.sheet
  obtain ⟨s', hs', -, h'⟩ := hworld'.sheet
  refine ⟨hreports, hreports'.trans hreports.symm, s, s', hs, hs', h'.version.trans h.version.symm,
    h'.css.trans h.css.symm, ?_⟩
  rw [h.css, Content.css, Bare.run_raws]

/-- Two runs with the same inputs: one is written at once to a target of its own, the other one goes through a
clone, an attached target and a tick. -/
def directRun : List Step :=
  [.call 0 (.cssRaw "a"), .call 0 .reinit, .call 0 (.cssRaw "b"), .detect .off, .call 0 (.fontFace [])]

def indirectRun : List Step :=
  [.clone 0, .call 1 (.cssRaw "a"), .call 1 (.setTarget 0), .tick, .call 0 .reinit, .call 1 (.cssRaw "b"),
    .call 1 .forceRender, .detect .off, .call 0 (.fontFace []), .tick]

theorem text_ignores_plumbing_indirectRun :
    let direct : World := { start [{ autoTarget := true, delivery := .immediate }] 0 with
      detector := .auto, environment := [] }
    let indirect : World := { start [{}] 1 with detector := .auto, environment := [] }
    indirect.inputs 0 indirectRun = direct.inputs 0 directRun ∧
      indirect.reports 0 indirectRun = direct.reports 0 directRun ∧
      (direct.reports 0 directRun).map Report.css = ["a", "", "b", "b", "b"] := by
  have hc : ([{ autoTarget := true, delivery := .immediate }] : List SheetConfig)[0]? = some _ := rfl
  have hc' : ([{}] : List SheetConfig)[0]? = some { autoTarget := false } := rfl
  obtain ⟨-, hsame, -⟩ := text_ignores_plumbing 0 1 .auto [] directRun indirectRun hc hc' rfl rfl
  exact ⟨rfl, hsame, rfl⟩

end World

end StyleEngine
