import StyleEngine.Proofs.Sheet.Detached

/-!
# Coalesced writes

A queued task writes when its token is still the current one, that is when it is the last task of its
sheet and nothing cancelled it since it was queued (`traced_run`). So one tick writes a sheet at most once,
however many operations came before it (`outputs_tick`). With what holds of outlets that were given up,
this is what a sheet writes in any run (`writes_coalesced`).
-/

namespace StyleEngine

namespace World

variable {w : World} {id : Nat} {s : Sheet} {task : FlushTask} {before after tasks : List FlushTask}

/-! ## What a tick writes -/

/-- What a task writes when it runs: the text of its sheet then, and where to. -/
def output? (w : World) (t : FlushTask) : Option (Outlet × String) :=
  if w.isAlive t.sheet && w.isCurrent t then
    (w.sheets[t.sheet]?).bind fun s => s.nextOutlet?.map fun o => (o, s.css)
  else none

/-- Sends a text to an outlet of a sheet. -/
def send (w : World) (id : Nat) : Option (Outlet × String) → World
  | none => w
  | some (o, text) => (w.modifySheet id (·.flushedTo o)).writeOutlet id text o

/-- Running a task is sending what it writes. -/
theorem runTask_eq_send (w : World) (t : FlushTask) : w.runTask t = w.send t.sheet (w.output? t) := by
  unfold runTask output?
  split
  · cases hs : w.sheets[t.sheet]? with
    | none => simp only [flush, hs]; rfl
    | some s =>
      cases ho : s.nextOutlet? with
      | none => simp only [flush, hs, ho, Option.bind_some, Option.map_none]; rfl
      | some o => simp only [flush, hs, ho, Option.bind_some, Option.map_some]; rfl
  · rfl

/-- What tasks write for a sheet when they run one after the other. -/
def outputs (id : Nat) : World → List FlushTask → List (Outlet × String)
  | _, [] => []
  | w, t :: rest => (if t.sheet = id then (w.output? t).toList else []) ++ outputs id (w.runTask t) rest

theorem outputs_append (first second : List FlushTask) (w : World) :
    outputs id w (first ++ second) = outputs id w first ++ outputs id (first.foldl runTask w) second := by
  induction first generalizing w with
  | nil => rfl
  | cons t rest ih => rw [List.cons_append, outputs, ih, outputs, List.foldl_cons, List.append_assoc]

theorem output?_of_sheet (hs : w.sheets[id]? = some s) (ht : task.sheet = id) :
    w.output? task =
      if w.isAlive id = true ∧ task.token = s.tracker.token then s.nextOutlet?.map fun o => (o, s.css)
      else none := by
  subst ht
  rw [output?, isCurrent, hs]
  simp [eq_comm (a := task.token)]

@[simp] theorem foldl_runTask_handles (tasks : List FlushTask) (w : World) :
    (tasks.foldl runTask w).handles = w.handles := by
  induction tasks generalizing w with
  | nil => rfl
  | cons t rest ih => rw [List.foldl_cons, ih, runTask_handles]

theorem isAlive_midTick (w : World) (tasks : List FlushTask) (id : Nat) :
    (w.midTick tasks).isAlive id = w.isAlive id :=
  isAlive_congr (foldl_runTask_handles tasks _)

/-- Tasks of which none is current for the sheet leave it alone and write nothing for it. -/
theorem idle_foldl (hs : w.sheets[id]? = some s)
    (h : ∀ t ∈ tasks, t.sheet = id → w.isAlive id = true → t.token ≠ s.tracker.token) :
    (tasks.foldl runTask w).sheets[id]? = some s ∧ outputs id w tasks = [] := by
  induction tasks generalizing w with
  | nil => exact ⟨hs, rfl⟩
  | cons t rest ih =>
    have halive : (w.runTask t).isAlive id = w.isAlive id := isAlive_congr (runTask_handles t)
    have hone : (w.runTask t).sheets[id]? = some s ∧
        (if t.sheet = id then (w.output? t).toList else []) = [] := by
      by_cases ht : t.sheet = id
      · have hnone : w.output? t = none := by
          rw [output?_of_sheet hs ht, if_neg fun hlive => h t List.mem_cons_self ht hlive.1 hlive.2]
        rw [runTask_eq_send, hnone]
        exact ⟨hs, if_pos ht⟩
      · exact ⟨by rw [(on_runTask t).others id (Ne.symm ht), hs], if_neg ht⟩
    obtain ⟨hs', hout⟩ := ih hone.1 fun u hu hid ha => h u (List.mem_cons_of_mem _ hu) hid (halive ▸ ha)
    refine ⟨hs', ?_⟩
    rw [outputs, hone.2, hout]
    rfl

theorem Pending.lt_of_append (h : Pending id w s) (hq : w.queue = before ++ task :: after)
    (ht : task.sheet = id) : (∀ t ∈ before, t.sheet = id → t.token < task.token) ∧
      ∀ t ∈ after, t.sheet = id → task.token < t.token := by
  have hsorted := h.sorted
  rw [hq] at hsorted
  obtain ⟨-, hrest, hacross⟩ := List.pairwise_append.mp hsorted
  refine ⟨fun t hm hid => hacross t hm task List.mem_cons_self hid ht, fun t hm hid => ?_⟩
  exact (List.pairwise_cons.mp hrest).1 t hm ht hid

/-- When the tick comes to the current task of a sheet, the sheet is as it was. -/
theorem Pending.sheet_midTick (h : Pending id w s) (hq : w.queue = before ++ task :: after)
    (ht : task.sheet = id) (hc : task.token = s.tracker.token) :
    (w.midTick before).sheets[id]? = some s ∧ outputs id { w with queue := [] } before = [] := by
  refine idle_foldl h.sheet fun t hm hid _ he => ?_
  have hlt := (h.lt_of_append hq ht).1 t hm hid
  omega

theorem Pending.exists_nextOutlet (h : Pending id w s) (hm : task ∈ w.queue) (ht : task.sheet = id) :
    ∃ o, s.nextOutlet? = some o := by
  have hcan := h.flushable task hm ht
  rw [← isSome_nextOutlet?] at hcan
  exact Option.isSome_iff_exists.mp hcan

/-- A queued task writes exactly when its sheet has a handle and its token is the current one. -/
theorem Pending.isSome_output_iff (h : Pending id w s) (hq : w.queue = before ++ task :: after)
    (ht : task.sheet = id) :
    ((w.midTick before).output? task).isSome = true ↔ w.isAlive id = true ∧ task.token = s.tracker.token := by
  obtain ⟨v, hv, hkept⟩ := kept_foldl (w := { w with queue := [] }) h.sheet before
  have hv : (w.midTick before).sheets[id]? = some v := hv
  rw [output?_of_sheet hv ht, isAlive_midTick, hkept.token]
  constructor
  · intro hsome
    by_cases hlive : w.isAlive id = true ∧ task.token = s.tracker.token
    · exact hlive
    · rw [if_neg hlive] at hsome
      cases hsome
  · intro hlive
    obtain rfl : v = s := Option.some.inj (hv.symm.trans (h.sheet_midTick hq ht hlive.2).1)
    obtain ⟨o, ho⟩ := h.exists_nextOutlet (hq ▸ List.mem_append_right _ List.mem_cons_self) ht
    rw [if_pos hlive, ho]
    rfl

/-- One tick writes a sheet once if the task of the current token is queued, and else not at all. -/
theorem outputs_tick (h : Pending id w s) :
    (w.isAlive id = true → ⟨id, s.tracker.token⟩ ∈ w.queue →
      ∃ o, s.nextOutlet? = some o ∧ outputs id { w with queue := [] } w.queue = [(o, s.css)]) ∧
    (¬ (w.isAlive id = true ∧ ⟨id, s.tracker.token⟩ ∈ w.queue) →
      outputs id { w with queue := [] } w.queue = []) := by
  constructor
  · intro ha hm
    obtain ⟨before, after, hq⟩ := List.append_of_mem hm
    obtain ⟨o, ho⟩ := h.exists_nextOutlet hm rfl
    obtain ⟨hs, hbefore⟩ := h.sheet_midTick hq rfl rfl
    have hafter := (h.lt_of_append hq rfl).2
    have hout : (w.midTick before).output? ⟨id, s.tracker.token⟩ = some (o, s.css) := by
      rw [output?_of_sheet hs rfl, isAlive_midTick, if_pos ⟨ha, rfl⟩, ho]
      rfl
    obtain ⟨s', hs', hkept⟩ := kept_runTask hs ⟨id, s.tracker.token⟩
    -- the sheet keeps its token when it is written, so the tasks behind are stale
    have hstale : ∀ t ∈ after, t.sheet = id → t.token ≠ s'.tracker.token := by
      intro t ht hid he
      have hlt := hafter t ht hid
      rw [he, hkept.token] at hlt
      exact Nat.lt_irrefl _ hlt
    have hidle := idle_foldl hs' fun t ht hid _ => hstale t ht hid
    refine ⟨o, ho, ?_⟩
    show outputs id _ w.queue = _
    rw [hq, outputs_append, hbefore, List.nil_append, outputs, if_pos rfl]
    show ((w.midTick before).output? _).toList ++ outputs id ((w.midTick before).runTask _) after = _
    rw [hout, hidle.2]
    rfl
  · intro hnone
    refine (idle_foldl (w := { w with queue := [] }) h.sheet fun t ht hid ha he => hnone ⟨ha, ?_⟩).2
    obtain ⟨sheet, token⟩ := t
    obtain rfl : sheet = id := hid
    exact he ▸ ht

/-! ## What becomes of a queued task -/

/-- The step `x` queued the task and no tick has come since. -/
structure Queued (w : World) (task : FlushTask) (earlier : List Step) (x : Step) (later : List Step) : Prop where
  new : task ∉ (w.run earlier).2.queue
  present : task ∈ ((w.run earlier).2.step x).2.queue
  waiting : .tick ∉ later

/-- Every task of the sheet that is queued after the steps was queued by one of them, and its token is
still the current one exactly when no task of the sheet came behind it and nothing cancelled it. -/
def Traced (id : Nat) (w : World) (steps : List Step) : Prop :=
  ∀ s before task after, (w.run steps).2.sheets[id]? = some s →
    (w.run steps).2.queue = before ++ task :: after → task.sheet = id →
    ∃ earlier x later, steps = earlier ++ x :: later ∧ Queued w task earlier x later ∧
      (task.token = s.tracker.token ↔ (∀ t ∈ after, t.sheet ≠ id) ∧
        Along (fun u y => ¬ Cancels id u y) ((w.run earlier).2.step x).2 later)

theorem append_eq_append_cons {α : Type} {xs ys before after : List α} {a : α}
    (h : xs ++ ys = before ++ a :: after) :
    (∃ middle, xs = before ++ a :: middle ∧ after = middle ++ ys) ∨
    ∃ middle, before = xs ++ middle ∧ ys = middle ++ a :: after := by
  rcases List.append_eq_append_iff.mp h with ⟨middle, hbefore, hys⟩ | ⟨middle, hxs, hafter⟩
  · exact .inr ⟨middle, hbefore, hys⟩
  · cases middle with
    | nil => exact .inr ⟨[], by simpa using hxs.symm, hafter.symm⟩
    | cons b rest =>
      obtain ⟨rfl, rfl⟩ := List.cons.inj hafter
      exact .inl ⟨rest, hxs, rfl⟩

theorem run_snoc (w : World) (steps : List Step) (x : Step) :
    (w.run (steps ++ [x])).2 = ((w.run steps).2.step x).2 := run_append w steps [x]

theorem traced_snoc {steps : List Step} (h : Traced id w steps) (hp : Pending id (w.run steps).2 s) (x : Step) :
    Traced id w (steps ++ [x]) := by
  intro s' before task after hs' hq ht
  rw [run_snoc] at hs' hq
  by_cases hx : x = .tick
  · subst hx
    have hempty : ((w.run steps).2.step .tick).2.queue = [] := tick_queue _
    rw [hempty] at hq
    simp at hq
  obtain ⟨s₁, new, hs₁, hnew, -, hm⟩ := movesTo_step hp.sheet hp.delivery hx
  obtain rfl : s₁ = s' := Option.some.inj (hs₁.symm.trans hs')
  rw [hnew] at hq
  rcases append_eq_append_cons hq with ⟨middle, hold, rfl⟩ | ⟨middle, rfl, hlast⟩
  · -- an older task: it stays current when the step neither queues nor cancels
    obtain ⟨earlier, y, later, rfl, hqueued, hcurrent⟩ := h s before task middle hp.sheet hold ht
    have hle : task.token ≤ s.tracker.token :=
      hp.bounded task (hold ▸ List.mem_append_right _ List.mem_cons_self) ht
    refine ⟨earlier, y, later ++ [x], by simp, ⟨hqueued.new, hqueued.present, ?_⟩, ?_⟩
    · intro hmem
      rcases List.mem_append.mp hmem with hmem | hmem
      · exact hqueued.waiting hmem
      · exact hx (List.mem_singleton.mp hmem).symm
    · have hrun : (((w.run earlier).2.step y).2.run later).2 = (w.run (earlier ++ y :: later)).2 :=
        (run_append w earlier (y :: later)).symm
      rw [hm.current_iff hle, hcurrent, along_append, hrun]
      simp only [List.forall_mem_append, Along, and_true]
      exact and_and_and_comm
  · -- a task of this step
    cases hm with
    | aside _ _ others => exact absurd ht (others task (hlast ▸ List.mem_append_right _ List.mem_cons_self))
    | cancels _ tasks => rw [tasks] at hlast; simp at hlast
    | defers hc n htoken tasks =>
      rw [tasks] at hlast
      obtain ⟨-, hlt, -⟩ := mem_issued (hlast ▸ List.mem_append_right _ List.mem_cons_self : task ∈ _)
      refine ⟨steps, x, [], rfl, ⟨fun hmem => ?_, ?_, List.not_mem_nil⟩, ?_⟩
      · exact absurd (hp.bounded task hmem ht) (Nat.not_le_of_lt hlt)
      · rw [hnew, tasks, hlast]
        simp
      · rw [htoken, token_of_issued hlast]
        constructor
        · rintro rfl
          exact ⟨fun _ hmem => absurd hmem List.not_mem_nil, trivial⟩
        · rintro ⟨hnone, -⟩
          refine List.eq_nil_iff_forall_not_mem.mpr fun t hmem => hnone t hmem ?_
          exact (mem_issued (hlast ▸ List.mem_append_right _ (List.mem_cons_of_mem _ hmem))).1

theorem traced_append {done : List Step} (h : Traced id w done) (hp : Pending id w s) (rest : List Step) :
    Traced id w (done ++ rest) := by
  induction rest generalizing done with
  | nil => simpa using h
  | cons x rest ih =>
    obtain ⟨s', hp'⟩ := pending_run hp done
    have hsnoc := ih (traced_snoc h hp' x)
    rwa [List.append_assoc] at hsnoc

theorem traced_run (hp : Pending id w s) (hq : w.queue = []) (steps : List Step) : Traced id w steps := by
  have hnone : Traced id w [] := by
    intro s before task after _ hold
    have hold : w.queue = before ++ task :: after := hold
    rw [hq] at hold
    simp at hold
  exact traced_append hnone hp steps

/-- What a sheet on the tick scheduler writes, after any run. A queued task writes exactly when the sheet
has a handle and the token of the task is the current one, that is when no task of the sheet came behind
it and no operation cancelled it since it was queued. A tick writes the text once if the task of the
current token is queued, and else nothing. When a target takes the place of an outlet, that outlet is
cleared by one write, and the sheet does not touch it until it is attached again. -/
theorem writes_coalesced {config : SheetConfig} (configs : List SheetConfig) (targets : Nat) (steps : List Step)
    (hc : configs[id]? = some config) (hd : config.delivery = .onTick) :
    let w₀ := start configs targets
    let w := (w₀.run steps).2
    (∀ (v : World) t, v.runTask t = v.send t.sheet (v.output? t)) ∧ w.tick.2 = w.midTick w.queue ∧
    ∃ s, w.sheets[id]? = some s ∧
      (∀ before task after, w.queue = before ++ task :: after → task.sheet = id →
        (((w.midTick before).output? task).isSome = true ↔ w.isAlive id = true ∧ task.token = s.tracker.token) ∧
        ∃ earlier x later, steps = earlier ++ x :: later ∧ Queued w₀ task earlier x later ∧
          (task.token = s.tracker.token ↔ (∀ t ∈ after, t.sheet ≠ id) ∧
            Along (fun u y => ¬ Cancels id u y) ((w₀.run earlier).2.step x).2 later)) ∧
      (w.isAlive id = true → ⟨id, s.tracker.token⟩ ∈ w.queue →
        ∃ o, s.nextOutlet? = some o ∧ outputs id { w with queue := [] } w.queue = [(o, s.css)]) ∧
      (¬ (w.isAlive id = true ∧ ⟨id, s.tracker.token⟩ ∈ w.queue) →
        outputs id { w with queue := [] } w.queue = []) ∧
      ∀ handle target old, w.sheetOf? handle = some id → s.outlet? = some old → .attached target ≠ old →
        let w' := (w.call handle (.setTarget target)).2
        w'.targetOf? id old = (w.targetOf? id old).map (·.write "") ∧
        w'.targetOf? id (.attached target) = (w.targetOf? id (.attached target)).map (·.write s.css) ∧
        ∀ later, Along (fun u x => ¬ Attaches id old u x) w' later → Silent id old (w'.run later).2 := by
  intro w₀ w
  have hstart : Pending id w₀ (Sheet.ofConfig config) := pending_start targets hc hd
  obtain ⟨s, hp⟩ := pending_run hstart steps
  obtain ⟨honce, hnone⟩ := outputs_tick hp
  refine ⟨runTask_eq_send, tick_eq w, s, hp.sheet,
    fun before task after hq ht => ⟨hp.isSome_output_iff hq ht, ?_⟩, honce, hnone, ?_⟩
  · exact traced_run hstart rfl steps s before task after hp.sheet hq ht
  · intro handle target old hh ho hne
    have hcall : (w.call handle (.setTarget target)).2 = w.setTarget id s target := by
      have hs : w.sheets[id]? = some s := hp.sheet
      simp only [call, hh, hs, perform]
    obtain ⟨hdetached, hcleared, hwritten⟩ := setTarget_of_some hp.sheet hp.delivery ho hne
    rw [hcall]
    exact ⟨hcleared, hwritten, fun later hlater => (detached_run hdetached hlater).silent⟩

/-- Two texts for one target, and then another target. -/
def burst : List Step := [.call 0 (.setTarget 0), .call 0 (.cssRaw "a"), .call 0 (.cssRaw "b")]

theorem writes_coalesced_burst :
    outputs 0 { ((start [{}] 2).run burst).2 with queue := [] } ((start [{}] 2).run burst).2.queue =
      [(.attached 0, "ab")] ∧
    (((start [{}] 2).run burst).2.call 0 (.setTarget 1)).2.targetOf? 0 (.attached 0) = some ⟨"", 2⟩ ∧
    Silent 0 (.attached 0) (((start [{}] 2).run burst).2.call 0 (.setTarget 1)).2 := by
  have hc : ([{}] : List SheetConfig)[0]? = some { autoTarget := false } := rfl
  obtain ⟨-, -, s, hs, -, honce, -, hdetach⟩ := writes_coalesced [{}] 2 burst hc rfl
  obtain rfl := Option.some.inj hs
  obtain ⟨o, ho, hout⟩ := honce rfl (by decide)
  obtain ⟨hcleared, -, hsilent⟩ := hdetach 0 1 (.attached 0) rfl rfl (by decide)
  refine ⟨?_, hcleared.trans rfl, hsilent [] trivial⟩
  rw [hout, ← Option.some.inj ho]
  rfl

end World

end StyleEngine
