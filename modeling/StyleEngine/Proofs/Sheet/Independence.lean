import StyleEngine.Proofs.Sheet.Coalescing
import StyleEngine.Proofs.Sheet.Effect

/-!
# Sheets that share a scheduler

The tasks of all sheets stand in one queue, and every sheet counts its tokens from one. A run is compared
with the run from which the operations on one sheet are left out (`without`). The other sheets cannot tell
the two apart, as long as the one sheet keeps away from their targets: what they answer, what they hold and
what they write is the same (`Without`, `Without.run`).
-/

namespace StyleEngine

namespace World

variable {w v : World} {id other : Nat} {mine : Nat → Prop} {s : Sheet} {s? : Option Sheet} {e : Effect}

/-! ## Effects on two worlds -/

theorem apply_sheet_congr {j : Nat} (h : w.sheets[j]? = v.sheets[j]?) (e : Effect) :
    (w.apply id e).sheets[j]? = (v.apply id e).sheets[j]? := by
  by_cases hj : j = id
  · subst hj
    rw [apply, apply, List.getElem?_set_self', List.getElem?_set_self', h]
  · rw [apply_sheet_ne hj, apply_sheet_ne hj, h]

theorem apply_target_congr {t : Nat} (h : w.targets[t]? = v.targets[t]?) (e : Effect) :
    (w.apply id e).targets[t]? = (v.apply id e).targets[t]? := by
  show (e.writes.foldl _ w.targets)[t]? = (e.writes.foldl _ v.targets)[t]?
  generalize w.targets = ts at h ⊢
  generalize v.targets = ts' at h ⊢
  generalize e.writes = writes
  induction writes generalizing ts ts' with
  | nil => exact h
  | cons x rest ih => exact ih _ _ (by simp only [List.getElem?_modify, h])

/-- A target that nothing is written to. -/
theorem apply_target_of_ne {t : Nat} (h : ∀ x ∈ e.writes, x.1 ≠ t) :
    (w.apply id e).targets[t]? = w.targets[t]? := by
  show (e.writes.foldl _ w.targets)[t]? = w.targets[t]?
  generalize w.targets = ts
  generalize e.writes = writes at h
  induction writes generalizing ts with
  | nil => rfl
  | cons x rest ih =>
    have hx : x.1 ≠ t := h x List.mem_cons_self
    rw [List.foldl_cons, ih _ fun y hy => h y (List.mem_cons_of_mem x hy)]
    simp [hx]

/-! ## Leaving a sheet out -/

/-- The step is kept when the operations on the sheet `other` are left out. Handles to it are still cloned,
so that all handles keep their numbers. -/
def stays (other : Nat) (w : World) : Step → Bool
  | .call handle _ | .drop handle => (w.sheetOf? handle).any (· != other)
  | _ => true

/-- The steps of a run but for the operations on the sheet `other`. -/
def without (other : Nat) (w : World) : List Step → List Step
  | [] => []
  | x :: rest =>
    let later := without other (w.step x).2 rest
    if w.stays other x then x :: later else later

theorem without_append (first second : List Step) :
    w.without other (first ++ second) = w.without other first ++ (w.run first).2.without other second := by
  induction first generalizing w with
  | nil => rfl
  | cons x rest ih =>
    have hrun : (w.run (x :: rest)).2 = ((w.step x).2.run rest).2 := rfl
    simp only [List.cons_append, without, ih, hrun]
    split <;> rfl

/-- What an operation on the sheet `id` answers. -/
def reply? (id : Nat) (w : World) : Step → Option (Except StyleError Answer)
  | .call handle c => if w.sheetOf? handle = some id then some (w.call handle c).1 else none
  | _ => none

/-- The names and errors that the operations on the sheet `id` return. -/
def replies (id : Nat) (w : World) : List Step → List (Except StyleError Answer)
  | [] => []
  | x :: rest => (w.reply? id x).toList ++ replies id (w.step x).2 rest

/-- The handle to a sheet that is not left out. -/
def shown (other : Nat) (handle : Option Nat) : Option Nat := handle.filter (· != other)

theorem shown_eq_some {handle : Option Nat} : shown other handle = some id ↔ handle = some id ∧ id ≠ other := by
  simp [shown, Option.filter_eq_some_iff]

/-- The world `v` is `w` without the operations on the sheet `other`, which is in the state `s?` there. The
worlds agree on the other sheets and on the targets in `mine`. -/
structure Without (other : Nat) (s? : Option Sheet) (mine : Nat → Prop) (w v : World) : Prop where
  sheets : ∀ id, id ≠ other → v.sheets[id]? = w.sheets[id]?
  left : v.sheets[other]? = s?
  targets : ∀ t, mine t → v.targets[t]? = w.targets[t]?
  handles : v.handles.map (shown other) = w.handles.map (shown other)
  queue : v.queue = w.queue.filter (·.sheet != other)
  detector : v.detector = w.detector
  environment : v.environment = w.environment
  apart : ∀ s t, w.sheets[other]? = some s → s.outlet? = some (.attached t) → ¬ mine t

namespace Without

theorem debugDefault (h : Without other s? mine w v) : v.debugDefault = w.debugDefault := by
  simp only [World.debugDefault, h.detector, h.environment]

theorem sheetOf? (h : Without other s? mine w v) (handle : Nat) :
    shown other (v.sheetOf? handle) = shown other (w.sheetOf? handle) := by
  have hentry : ∀ u : World, shown other (u.sheetOf? handle) = ((u.handles.map (shown other))[handle]?).join := by
    intro u
    rw [World.sheetOf?, List.getElem?_map]
    cases u.handles[handle]? <;> rfl
  rw [hentry, hentry, h.handles]

theorem sheetOf?_iff (h : Without other s? mine w v) (hid : id ≠ other) (handle : Nat) :
    v.sheetOf? handle = some id ↔ w.sheetOf? handle = some id := by
  have hshown : ∀ u : World, u.sheetOf? handle = some id ↔ shown other (u.sheetOf? handle) = some id :=
    fun u => ⟨fun hu => shown_eq_some.mpr ⟨hu, hid⟩, fun hu => (shown_eq_some.mp hu).1⟩
  rw [hshown, hshown, h.sheetOf?]

theorem isAlive (h : Without other s? mine w v) (hid : id ≠ other) : v.isAlive id = w.isAlive id := by
  have hshown : ∀ u : World, u.isAlive id = true ↔ some id ∈ u.handles.map (shown other) := by
    intro u
    rw [World.isAlive, List.contains_iff_mem, List.mem_map]
    constructor
    · exact fun hu => ⟨_, hu, shown_eq_some.mpr ⟨rfl, hid⟩⟩
    · rintro ⟨handle, hu, he⟩
      rwa [(shown_eq_some.mp he).1] at hu
  rw [Bool.eq_iff_iff, hshown, hshown, h.handles]

/-- An effect on a sheet that stays. -/
theorem apply (h : Without other s? mine w v) (hid : id ≠ other) (e : Effect) :
    Without other s? mine (w.apply id e) (v.apply id e) where
  sheets := fun j hj => apply_sheet_congr (h.sheets j hj) e
  left := (apply_sheet_ne (Ne.symm hid) e).trans h.left
  targets := fun t ht => apply_target_congr (h.targets t ht) e
  handles := h.handles
  queue := by
    have hnew : (e.tokens.map (FlushTask.mk id)).filter (·.sheet != other) = e.tokens.map (FlushTask.mk id) :=
      List.filter_eq_self.mpr fun t ht => by
        obtain ⟨n, -, rfl⟩ := List.mem_map.mp ht
        simp [hid]
    simp only [World.apply, h.queue, List.filter_append, hnew]
  detector := h.detector
  environment := h.environment
  apart := fun s t hs => h.apart s t ((apply_sheet_ne (Ne.symm hid) e).symm.trans hs)

/-- An effect on the sheet that is left out. -/
theorem apply_left {new : Nat → Prop} (h : Without other s? mine w v) (hs : w.sheets[other]? = some s)
    (he : e.Follows new s) (hn : ∀ t, new t → ¬ mine t) : Without other s? mine (w.apply other e) v where
  sheets := fun j hj => (h.sheets j hj).trans (apply_sheet_ne hj e).symm
  left := h.left
  targets := fun t ht => by
    have hne : ∀ x ∈ e.writes, x.1 ≠ t := by
      rintro x hx rfl
      rcases he.writes x hx with ho | hnew
      · exact h.apart s x.1 hs ho ht
      · exact hn x.1 hnew ht
    rw [apply_target_of_ne hne, h.targets t ht]
  handles := h.handles
  queue := by
    have hnew : (e.tokens.map (FlushTask.mk other)).filter (·.sheet != other) = [] :=
      List.filter_eq_nil_iff.mpr fun t ht => by
        obtain ⟨n, -, rfl⟩ := List.mem_map.mp ht
        simp
    simp only [World.apply, List.filter_append, hnew, List.append_nil, h.queue]
  detector := h.detector
  environment := h.environment
  apart := fun s' t hs' ho => by
    obtain rfl := Option.some.inj ((apply_sheet hs e).symm.trans hs')
    rcases he.attached t ho with ho | hnew
    · exact h.apart s t hs ho
    · exact hn t hnew

/-! ### Tasks -/

theorem runTask_left (h : Without other s? mine w v) {task : FlushTask} (ht : task.sheet = other) :
    Without other s? mine (w.runTask task) v := by
  subst ht
  rcases runTask_cases w task with hr | ⟨s, hs, -, -, hr⟩
  · rwa [hr]
  · have he : s.flushEffect.Follows (fun _ => False) s := .flushEffect s
    rw [hr]
    exact h.apply_left hs he nofun

theorem runTask (h : Without other s? mine w v) {task : FlushTask} (ht : task.sheet ≠ other) :
    Without other s? mine (w.runTask task) (v.runTask task) := by
  have hcurrent : v.isCurrent task = w.isCurrent task := by simp only [isCurrent, h.sheets _ ht]
  have hflush : Without other s? mine (w.flush task.sheet) (v.flush task.sheet) := by
    cases hs : w.sheets[task.sheet]? with
    | none =>
      rw [flush_of_missing hs, flush_of_missing ((h.sheets _ ht).trans hs)]
      exact h
    | some s =>
      rw [flush_eq_apply hs, flush_eq_apply ((h.sheets _ ht).trans hs)]
      exact h.apply ht _
  simp only [World.runTask, h.isAlive ht, hcurrent]
  split
  · exact hflush
  · exact h

/-- The tasks of the sheet that is left out stand between the others and do nothing to them. -/
theorem foldl (h : Without other s? mine w v) (tasks : List FlushTask) :
    Without other s? mine (tasks.foldl World.runTask w)
      ((tasks.filter (·.sheet != other)).foldl World.runTask v) := by
  induction tasks generalizing w v with
  | nil => exact h
  | cons t rest ih =>
    by_cases ht : t.sheet = other
    · rw [List.filter_cons_of_neg (by simp [ht])]
      exact ih (h.runTask_left ht)
    · rw [List.filter_cons_of_pos (by simp [ht])]
      exact ih (h.runTask ht)

theorem tick (h : Without other s? mine w v) : Without other s? mine w.tick.2 v.tick.2 := by
  rw [tick_eq, tick_eq, h.queue]
  refine foldl (w := { w with queue := [] }) (v := { v with queue := [] }) ?_ w.queue
  exact ⟨h.sheets, h.left, h.targets, h.handles, rfl, h.detector, h.environment, h.apart⟩

/-! ### Steps -/

/-- An operation on a sheet that stays answers the same. -/
theorem call (h : Without other s? mine w v) {handle : Nat} (hw : w.sheetOf? handle = some id) (hid : id ≠ other)
    (c : Call) :
    (v.call handle c).1 = (w.call handle c).1 ∧ Without other s? mine (w.call handle c).2 (v.call handle c).2 := by
  have hv : v.sheetOf? handle = some id := (h.sheetOf?_iff hid handle).mpr hw
  cases hs : w.sheets[id]? with
  | none =>
    rw [call_of_none (by rw [hv]; exact (h.sheets id hid).trans hs), call_of_none (by rw [hw]; exact hs)]
    exact ⟨rfl, h⟩
  | some s =>
    rw [call_eq_apply hw hs, call_eq_apply hv ((h.sheets id hid).trans hs), h.debugDefault]
    exact ⟨rfl, h.apply hid _⟩

theorem exists_of_stays {handle : Nat} (hx : (w.sheetOf? handle).any (· != other) = true) :
    ∃ id, w.sheetOf? handle = some id ∧ id ≠ other := by
  obtain ⟨id, hw, hne⟩ := (Option.any_eq_true ..).mp hx
  exact ⟨id, hw, bne_iff_ne.mp hne⟩

/-- The step lemma for a step that stays. -/
theorem step (h : Without other s? mine w v) {x : Step} (hx : w.stays other x = true) :
    Without other s? mine (w.step x).2 (v.step x).2 := by
  cases x with
  | call handle c =>
    obtain ⟨id, hw, hid⟩ := exists_of_stays hx
    exact (h.call hw hid c).2
  | tick => exact h.tick
  | write target text =>
    refine { h with targets := fun t ht => ?_ }
    simp only [World.step, writeTarget, List.getElem?_modify, h.targets t ht]
  | clone handle =>
    refine { h with handles := ?_ }
    simp only [World.step, List.map_append, List.map_cons, List.map_nil, h.handles, h.sheetOf?]
  | drop handle =>
    refine { h with handles := ?_ }
    simp only [World.step, List.map_set, h.handles]
  | detect mode => exact { h with detector := rfl }
  | setEnvironment environment => exact { h with environment := rfl }

/-- The step lemma for a step that is left out. -/
theorem step_left (h : Without other s? mine w v) {x : Step} (hx : w.stays other x = false)
    (hm : ∀ t, mine t → ¬ Attaches other (.attached t) w x) : Without other s? mine (w.step x).2 v := by
  cases x with
  | tick | write | clone | detect | setEnvironment => cases hx
  | call handle c =>
    show Without other s? mine (w.call handle c).2 v
    rcases call_cases w handle c with hc | ⟨i, s, hw, hs, hc⟩
    · rwa [hc]
    · obtain rfl : i = other := by simpa [stays, hw] using hx
      rw [hc]
      refine h.apply_left hs (.effect _ s c) fun t ht hmine => hm t hmine ?_
      subst ht
      exact ⟨hw, rfl⟩
  | drop handle =>
    have hnone : shown other (w.sheetOf? handle) = none := by
      cases hw : w.sheetOf? handle with
      | none => rfl
      | some i =>
        obtain rfl : i = other := by simpa [stays, hw] using hx
        simp [shown]
    refine { h with handles := ?_ }
    show _ = (w.handles.set handle none).map (shown other)
    -- the handle that is dropped did not show
    rw [h.handles, List.map_set]
    refine List.ext_getElem? fun j => ?_
    rw [List.getElem?_set]
    split
    · next hj =>
      subst hj
      split
      · next hlt =>
        rw [List.length_map] at hlt
        simp only [World.sheetOf?, List.getElem?_eq_getElem hlt, Option.join_some] at hnone
        rw [List.getElem?_map, List.getElem?_eq_getElem hlt, Option.map_some, hnone]
        rfl
      · next hlt => exact List.getElem?_eq_none_iff.mpr (Nat.not_lt.mp hlt)
    · rfl

theorem reply? (h : Without other s? mine w v) (hid : id ≠ other) (x : Step) : v.reply? id x = w.reply? id x := by
  cases x with
  | call handle c =>
    simp only [World.reply?, h.sheetOf?_iff hid]
    split
    · next hw => rw [(h.call hw hid c).1]
    · rfl
  | tick | write | clone | drop | detect | setEnvironment => rfl

theorem reply?_left {x : Step} (hx : w.stays other x = false) (hid : id ≠ other) : w.reply? id x = none := by
  cases x with
  | call handle c =>
    refine if_neg fun hw => hid ?_
    simpa [stays, hw] using hx
  | tick | write | clone | drop | detect | setEnvironment => rfl

/-- The run lemma. -/
theorem run (h : Without other s? mine w v) {steps : List Step}
    (hm : Along (fun u x => ∀ t, mine t → ¬ Attaches other (.attached t) u x) w steps) :
    (∀ id, id ≠ other → v.replies id (w.without other steps) = w.replies id steps) ∧
      Without other s? mine (w.run steps).2 (v.run (w.without other steps)).2 := by
  induction steps generalizing w v with
  | nil => exact ⟨fun _ _ => rfl, h⟩
  | cons x rest ih =>
    rw [without]
    cases hx : w.stays other x with
    | true =>
      obtain ⟨hreplies, hworld⟩ := ih (h.step hx) hm.2
      refine ⟨fun id hid => ?_, hworld⟩
      simp only [if_true, replies, h.reply? hid, hreplies id hid]
    | false =>
      obtain ⟨hreplies, hworld⟩ := ih (h.step_left hx hm.1) hm.2
      refine ⟨fun id hid => ?_, hworld⟩
      rw [replies, reply?_left hx hid]
      exact hreplies id hid

end Without

/-! ## Sheets without handles -/

/-- The sheet has no handle left and is in the state `s?`. -/
structure Dropped (id : Nat) (s? : Option Sheet) (w : World) : Prop where
  handles : w.isAlive id = false
  sheet : w.sheets[id]? = s?

theorem Dropped.apply {i : Nat} (h : Dropped id s? w) (ha : w.isAlive i = true) (e : Effect) :
    Dropped id s? (w.apply i e) where
  handles := h.handles
  sheet := by
    have hi : id ≠ i := by
      rintro rfl
      exact absurd ha (Bool.eq_false_iff.mp h.handles)
    exact (apply_sheet_ne hi e).trans h.sheet

theorem dropped_step (h : Dropped id s? w) (x : Step) : Dropped id s? (w.step x).2 := by
  cases x with
  | write | detect | setEnvironment => exact ⟨h.handles, h.sheet⟩
  | call handle c =>
    show Dropped id s? (w.call handle c).2
    rcases call_cases w handle c with hc | ⟨i, s, hw, -, hc⟩
    · rwa [hc]
    · rw [hc]
      exact h.apply (isAlive_of_sheetOf? hw) _
  | tick =>
    show Dropped id s? w.tick.2
    rw [tick_eq]
    exact foldl_runTask_induction (fun v i r hv _ ha => hv.apply ha r.flushEffect) w.queue ⟨h.handles, h.sheet⟩
  | clone handle =>
    refine ⟨?_, h.sheet⟩
    -- a clone of a dropped handle is none either
    have hne : w.sheetOf? handle ≠ some id :=
      fun hw => absurd (isAlive_of_sheetOf? hw) (Bool.eq_false_iff.mp h.handles)
    have hnot : some id ∉ w.handles := by simpa [isAlive] using h.handles
    simpa [World.step, isAlive, hnot] using Ne.symm hne
  | drop handle =>
    refine ⟨?_, h.sheet⟩
    have hnot : some id ∉ w.handles := by simpa [isAlive] using h.handles
    refine Bool.eq_false_iff.mpr fun ha => ?_
    rcases List.mem_or_eq_of_mem_set (List.contains_iff_mem.mp ha) with hm | he
    · exact hnot hm
    · cases he

theorem dropped_run (h : Dropped id s? w) (steps : List Step) : Dropped id s? (w.run steps).2 := by
  induction steps generalizing w with
  | nil => exact h
  | cons x rest ih => exact ih (dropped_step h x)

/-- Sheets that share a scheduler are independent. At every point of every run, from any debug detection,
the sheets other than `other` have answered and hold the same as without the operations on `other`, and so do
the targets that `other` does not attach. A sheet whose handles are all dropped stays as it is from then on,
and its tasks do nothing. -/
theorem sheets_independent (configs : List SheetConfig) (targets : Nat) (detector : DebugMode)
    (environment : Environment) (other : Nat) (mine : Nat → Prop) (steps later : List Step)
    (hm : Along (fun u x => ∀ t, mine t → ¬ Attaches other (.attached t) u x)
      { start configs targets with detector, environment } steps) :
    let w₀ : World := { start configs targets with detector, environment }
    let w := (w₀.run steps).2
    let v := (w₀.run (w₀.without other steps)).2
    (∀ id, id ≠ other →
      w₀.replies id (w₀.without other steps) = w₀.replies id steps ∧ v.sheets[id]? = w.sheets[id]?) ∧
    (∀ t, mine t → v.targets[t]? = w.targets[t]?) ∧
    v.sheets[other]? = (configs[other]?).map Sheet.ofConfig ∧
    w₀.without other (steps ++ later) = w₀.without other steps ++ w.without other later ∧
    ∀ id, w.isAlive id = false →
      (w.run later).2.sheets[id]? = w.sheets[id]? ∧
        ∀ before task, task.sheet = id →
          ((w.run later).2.midTick before).runTask task = (w.run later).2.midTick before := by
  intro w₀ w v
  have h₀ : Without other ((configs[other]?).map Sheet.ofConfig) mine w₀ w₀ := by
    refine ⟨fun _ _ => rfl, by simp [w₀, start], fun _ _ => rfl, rfl, rfl, rfl, rfl, fun s t hs ho => ?_⟩
    -- no sheet starts with an outlet
    have hs : (configs.map Sheet.ofConfig)[other]? = some s := hs
    obtain ⟨c, -, rfl⟩ := Option.map_eq_some_iff.mp ((List.getElem?_map ..).symm.trans hs)
    cases ho
  obtain ⟨hreplies, h⟩ := h₀.run hm
  refine ⟨fun id hid => ⟨hreplies id hid, h.sheets id hid⟩, h.targets, h.left, without_append steps later, ?_⟩
  intro id ha
  have hdropped : Dropped id w.sheets[id]? (w.run later).2 := dropped_run ⟨ha, rfl⟩ later
  refine ⟨hdropped.sheet, fun before task ht => runTask_of_dropped task ?_⟩
  rw [isAlive_midTick, ht]
  exact hdropped.handles

/-- A task is queued for either sheet, with the same token, when the first sheet loses its handle. -/
def sharedQueueRun : List Step :=
  [.call 0 (.setTarget 0), .call 1 (.setTarget 1), .call 0 (.cssRaw "a"), .call 1 (.cssRaw "b"), .drop 0]

theorem sheets_independent_sharedQueue :
    let w₀ : World := { start [{}, {}] 2 with detector := .on, environment := [] }
    let w := (w₀.run sharedQueueRun).2
    w.queue = [⟨0, 2⟩, ⟨1, 2⟩] ∧
      w₀.without 0 sharedQueueRun = [.call 1 (.setTarget 1), .call 1 (.cssRaw "b")] ∧
      w₀.replies 1 sharedQueueRun = [.ok .done, .ok .done] ∧
      (w₀.run (w₀.without 0 sharedQueueRun)).2.sheets[1]? = w.sheets[1]? ∧
      (w.midTick []).runTask ⟨0, 2⟩ = w.midTick [] ∧ w.tick.2.targets = [⟨"", 1⟩, ⟨"b", 2⟩] := by
  have hm : Along (fun u x => ∀ t, t = 1 → ¬ Attaches 0 (.attached t) u x)
      { start [{}, {}] 2 with detector := .on, environment := [] } sharedQueueRun := by
    refine ⟨?_, ?_, ?_, ?_, ?_, trivial⟩ <;> rintro t rfl
    · exact fun h => nomatch h.2
    · exact fun h => nomatch h.1
    all_goals exact id
  obtain ⟨hothers, -, -, -, hdropped⟩ :=
    sheets_independent [{}, {}] 2 .on [] 0 (· = 1) sharedQueueRun [] hm
  refine ⟨rfl, rfl, rfl, (hothers 1 (by decide)).2, ?_, rfl⟩
  exact (hdropped 0 rfl).2 [] ⟨0, 2⟩ rfl

end World

end StyleEngine
