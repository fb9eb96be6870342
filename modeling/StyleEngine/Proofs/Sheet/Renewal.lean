import StyleEngine.Proofs.Sheet.Detached
import StyleEngine.Proofs.Sheet.Effect

/-!
# A sheet that was reinitialised is a new one

`reinit` drops rules and texts, but tokens go on counting and tasks stay queued. Both cannot be seen:
operations do the same whatever tokens were issued before (`aged_effect`), and tasks from before carry
tokens that are never current again. So a sheet that was reinitialised and a fresh one with the same
outlet run side by side, the first some tokens ahead (`Ahead`, `Ahead.run`).
-/

namespace StyleEngine

/-- The sheet with `k` more tokens issued. -/
def Sheet.aged (k : Nat) (s : Sheet) : Sheet :=
  { s with tracker := { s.tracker with token := s.tracker.token + k } }

def Effect.aged (k : Nat) (e : Effect) : Effect :=
  { e with sheet := e.sheet.aged k, tokens := e.tokens.map (· + k) }

theorem Effect.aged_andThen (k : Nat) (e next : Effect) :
    (e.andThen next).aged k = (e.aged k).andThen (next.aged k) := by
  simp [andThen, aged]

/-- The task of a sheet whose tokens are `k` further on. -/
def FlushTask.aged (id k : Nat) (t : FlushTask) : FlushTask :=
  if t.sheet = id then { t with token := t.token + k } else t

/-- The task belongs to the sheet and carries a token from before `first`. -/
def FlushTask.isOld (id first : Nat) (t : FlushTask) : Bool := t.sheet = id && t.token < first

/-! ## Operations do not depend on the tokens issued so far -/

namespace Sheet

variable {k : Nat} {s : Sheet}

theorem aged_issueToken : (s.aged k).issueToken = s.issueToken.aged k := by
  simp [aged, issueToken, Tracker.issueToken, Nat.add_right_comm]

theorem aged_sent (text : String) (o : Outlet) : (s.aged k).sent text o = (s.sent text o).aged k := by
  cases o <;> rfl

theorem aged_flushEffect : (s.aged k).flushEffect = s.flushEffect.aged k := by
  have hnext : (s.aged k).nextOutlet? = s.nextOutlet? := rfl
  simp only [flushEffect, hnext]
  cases s.nextOutlet? with
  | none => rfl
  | some o => exact aged_sent (s := s.flushedTo o) s.css o

theorem aged_updateEffect : (s.aged k).updateEffect = s.updateEffect.aged k := by
  have hneeds : ((s.aged k).needsFlush && (s.aged k).canFlush) = (s.needsFlush && s.canFlush) := rfl
  have hdelivery : (s.aged k).delivery = s.delivery := rfl
  simp only [updateEffect, hneeds, hdelivery]
  split
  · cases s.delivery with
    | immediate => simp only [aged_issueToken, aged_flushEffect]
    | onTick =>
      simp only [aged_issueToken, Effect.aged, List.map_cons, List.map_nil, Effect.mk.injEq, true_and]
      exact congrArg (· :: []) (Nat.add_right_comm _ _ _)
    | unattended => simp only [aged_issueToken, Effect.aged, List.map_nil]
  · rfl

theorem aged_registerEffect (result : Except StyleError (Answer × Registry)) :
    (s.aged k).registerEffect result = ((s.registerEffect result).1, (s.registerEffect result).2.aged k) := by
  cases result with
  | error e => rfl
  | ok r => exact congrArg (Prod.mk (Except.ok r.1)) (aged_updateEffect (s := { s with registry := r.2 }))

theorem aged_styleEffect (debug : Bool) (ds : List (Option Description)) :
    (s.aged k).styleEffect debug ds = ((s.styleEffect debug ds).1, (s.styleEffect debug ds).2.aged k) :=
  aged_registerEffect _

theorem aged_stylesheetEffect (debug : Bool) (classes : List (String × String))
    (named : List (String × Description)) :
    (s.aged k).stylesheetEffect debug classes named =
      ((s.stylesheetEffect debug classes named).1, (s.stylesheetEffect debug classes named).2.aged k) := by
  induction named generalizing s classes with
  | nil => rfl
  | cons entry rest ih =>
    obtain ⟨name, d⟩ := entry
    simp only [stylesheetEffect, aged_styleEffect]
    generalize s.styleEffect debug [some (d.withDebugName name)] = result
    obtain ⟨answer, e⟩ := result
    cases answer with
    | error _ => rfl
    | ok a =>
      cases a with
      | name c =>
        simp only
        have hnext : (e.aged k).sheet = e.sheet.aged k := rfl
        rw [hnext, ih, Effect.aged_andThen]
      | done | names _ | count _ => rfl

theorem aged_setTargetEffect (target : Nat) :
    (s.aged k).setTargetEffect target = (s.setTargetEffect target).aged k := by
  have houtlet : (s.aged k).outlet? = s.outlet? := rfl
  simp only [setTargetEffect, houtlet, aged_issueToken]
  cases s.outlet? with
  | none => rfl
  | some o => cases o <;> rfl

theorem aged_reinitEffect : (s.aged k).reinitEffect = s.reinitEffect.aged k := by
  have houtlet : (s.aged k).outlet? = s.outlet? := rfl
  have hfresh : (s.aged k).reinit = s.reinit.aged k := by
    simp [aged, reinit, Tracker.reset, Nat.add_right_comm]
  simp only [reinitEffect, houtlet, hfresh]
  cases s.outlet? with
  | none => rfl
  | some o => exact aged_sent "" o

/-- What an operation answers and does is the same after more tokens, up to these tokens. -/
theorem aged_effect (debug : Bool) (c : Call) :
    (s.aged k).effect debug c = ((s.effect debug c).1, (s.effect debug c).2.aged k) := by
  cases c with
  | style | cssRule | keyframes | fontFace => exact aged_registerEffect _
  | cssRaw css =>
    simp only [effect]
    split
    · rfl
    · exact congrArg (Prod.mk _)
        (aged_updateEffect (s := { s with raw := s.raw ++ css, tracker := s.tracker.markRaw }))
  | stylesheet named => exact aged_stylesheetEffect debug [] named
  | setTarget target => exact congrArg (Prod.mk _) (aged_setTargetEffect target)
  | forceRender => simp only [effect, aged_issueToken, aged_flushEffect]
  | reinit => exact congrArg (Prod.mk _) aged_reinitEffect

/-- No operation answers with a count. -/
theorem effect_ne_count (debug : Bool) (c : Call) (n : Nat) : (s.effect debug c).1 ≠ .ok (.count n) := by
  have hregister : ∀ {s : Sheet} {result : Except StyleError (Answer × Registry)},
      (∀ r, result ≠ .ok (.count n, r)) → (s.registerEffect result).1 ≠ .ok (.count n) := by
    rintro s (e | ⟨answer, r⟩) h he
    · cases he
    · exact h r (by rw [Except.ok.inj he])
  have hstyle : ∀ s ds, (styleEffect debug s ds).1 ≠ .ok (.count n) := fun s ds =>
    hregister fun r he => by obtain ⟨_, -, h⟩ := ok_of_map_ok he; cases h
  have hstylesheet : ∀ named s classes, (stylesheetEffect debug s classes named).1 ≠ .ok (.count n) := by
    intro named
    induction named with
    | nil => intro s classes h; cases h
    | cons entry rest ih =>
      intro s classes
      have hs := hstyle s [some (entry.2.withDebugName entry.1)]
      unfold stylesheetEffect
      split
      · exact ih _ _
      · exact hs
  cases c with
  | style ds => exact hstyle s ds
  | cssRule selector ds =>
    exact hregister fun r he => by obtain ⟨_, -, h⟩ := ok_of_map_ok he; cases h
  | keyframes k =>
    exact hregister fun r he => by obtain ⟨_, -, h⟩ := ok_of_map_ok he; cases h
  | fontFace ds =>
    exact hregister fun r he => by obtain ⟨_, -, h⟩ := ok_of_map_ok he; cases h
  | cssRaw css =>
    simp only [effect]
    split <;> exact fun h => by cases h
  | stylesheet named => exact hstylesheet named s []
  | setTarget | forceRender | reinit => exact fun h => by cases h

end Sheet

/-- The first tick counts `n` tasks more. -/
def countMore (n : Nat) : List (Except StyleError Answer) → List (Except StyleError Answer)
  | [] => []
  | .ok (.count m) :: rest => .ok (.count (m + n)) :: rest
  | answer :: rest => answer :: countMore n rest

theorem countMore_cons {answer : Except StyleError Answer} (h : ∀ m, answer ≠ .ok (.count m)) (n : Nat)
    (rest : List (Except StyleError Answer)) : countMore n (answer :: rest) = answer :: countMore n rest := by
  rw [countMore]
  exact h

theorem countMore_zero (answers : List (Except StyleError Answer)) : countMore 0 answers = answers := by
  fun_induction countMore 0 answers with
  | case1 => rfl
  | case2 m rest => rfl
  | case3 answer rest _ ih => rw [ih]

namespace World

variable {w v : World} {id k first n : Nat} {config : SheetConfig} {r s : Sheet} {e : Effect}

/-! ## Side by side -/

/-- The world `w` is `v`, but that the sheet `id` is `k` tokens further on, and `n` tasks with tokens from
before `first` are queued for it. -/
structure Ahead (id k first n : Nat) (w v : World) : Prop where
  sheets : w.sheets = v.sheets.modify id (Sheet.aged k)
  targets : w.targets = v.targets
  handles : w.handles = v.handles
  detector : w.detector = v.detector
  environment : w.environment = v.environment
  queue : w.queue.filter (fun t => !t.isOld id first) = v.queue.map (FlushTask.aged id k)
  left : w.queue.countP (FlushTask.isOld id first) = n
  current : ∀ r, v.sheets[id]? = some r → first ≤ r.tracker.token + k

namespace Ahead

theorem sheet_self (h : Ahead id k first n w v) : w.sheets[id]? = (v.sheets[id]?).map (Sheet.aged k) := by
  simp [h.sheets]

theorem sheet_ne (h : Ahead id k first n w v) {j : Nat} (hj : j ≠ id) : w.sheets[j]? = v.sheets[j]? := by
  simp [h.sheets, Ne.symm hj]

/-- The sheet in the one world and in the other. -/
theorem aged (h : Ahead id k first n w v) (hr : v.sheets[id]? = some r) : w.sheets[id]? = some (r.aged k) := by
  rw [h.sheet_self, hr]
  rfl

theorem missing (h : Ahead id k first n w v) {j : Nat} (hj : v.sheets[j]? = none) : w.sheets[j]? = none := by
  rw [h.sheets, List.getElem?_modify, hj]
  rfl

theorem debugDefault (h : Ahead id k first n w v) : w.debugDefault = v.debugDefault := by
  simp only [World.debugDefault, h.detector, h.environment]

theorem isAlive (h : Ahead id k first n w v) (j : Nat) : w.isAlive j = v.isAlive j := by
  simp only [World.isAlive, h.handles]

theorem sheetOf? (h : Ahead id k first n w v) (handle : Nat) : w.sheetOf? handle = v.sheetOf? handle := by
  simp only [World.sheetOf?, h.handles]

/-- Tasks that are not old and correspond are queued on both sides. -/
theorem queue_append (h : Ahead id k first n w v) (tasks tasks' : List FlushTask)
    (hnew : ∀ t ∈ tasks, t.isOld id first = false) (ht : tasks = tasks'.map (FlushTask.aged id k)) :
    (w.queue ++ tasks).filter (fun t => !t.isOld id first) = (v.queue ++ tasks').map (FlushTask.aged id k) ∧
      (w.queue ++ tasks).countP (FlushTask.isOld id first) = n := by
  constructor
  · rw [List.filter_append, List.map_append, h.queue, ← ht, List.filter_eq_self.mpr]
    intro t hm
    rw [hnew t hm]
    rfl
  · rw [List.countP_append, h.left, List.countP_eq_zero.mpr]
    · rfl
    · intro t hm ho
      rw [hnew t hm] at ho
      cases ho

theorem apply_self {new : Nat → Prop} (h : Ahead id k first n w v) (hr : v.sheets[id]? = some r)
    (he : e.Follows new r) : Ahead id k first n (w.apply id (e.aged k)) (v.apply id e) := by
  have hfirst := h.current r hr
  have hqueue := h.queue_append ((e.tokens.map (· + k)).map (FlushTask.mk id)) (e.tokens.map (FlushTask.mk id)) ?_ ?_
  · refine ⟨?_, ?_, h.handles, h.detector, h.environment, hqueue.1, hqueue.2, fun r' hr' => ?_⟩
    · refine List.ext_getElem? fun j => ?_
      simp only [apply, h.sheets, List.getElem?_set, List.getElem?_modify, List.length_modify, Effect.aged]
      by_cases hj : id = j
      · subst hj
        by_cases hlt : id < v.sheets.length <;> simp [hlt]
      · simp [hj]
    · simp only [apply, h.targets, Effect.aged]
    · obtain rfl : e.sheet = r' := Option.some.inj ((apply_sheet hr e).symm.trans hr')
      have hle := he.token
      omega
  · -- new tokens are beyond the present one
    intro t ht
    rw [List.map_map] at ht
    obtain ⟨m, hm, rfl⟩ := List.mem_map.mp ht
    have hlow := (he.tokens m hm).1
    simp [FlushTask.isOld]
    omega
  · simp [FlushTask.aged]

theorem apply_ne {j : Nat} (h : Ahead id k first n w v) (hj : j ≠ id) (e : Effect) :
    Ahead id k first n (w.apply j e) (v.apply j e) := by
  have hqueue := h.queue_append (e.tokens.map (FlushTask.mk j)) (e.tokens.map (FlushTask.mk j)) ?_ ?_
  · refine ⟨?_, ?_, h.handles, h.detector, h.environment, hqueue.1, hqueue.2, fun r' hr' => ?_⟩
    · refine List.ext_getElem? fun i => ?_
      simp only [apply, h.sheets, List.getElem?_set, List.getElem?_modify, List.length_modify]
      by_cases hi : j = i
      · subst hi
        by_cases hlt : j < v.sheets.length <;> simp [hlt, Ne.symm hj]
      · simp [hi]
    · simp only [apply, h.targets]
    · exact h.current r' ((apply_sheet_ne (Ne.symm hj) e).symm.trans hr')
  · intro t ht
    obtain ⟨m, -, rfl⟩ := List.mem_map.mp ht
    simp [FlushTask.isOld, hj]
  · simp [FlushTask.aged, hj]

/-- An operation answers the same on both sides. -/
theorem call (h : Ahead id k first n w v) (handle : Nat) (c : Call) :
    (w.call handle c).1 = (v.call handle c).1 ∧ Ahead id k first n (w.call handle c).2 (v.call handle c).2 := by
  cases hh : v.sheetOf? handle with
  | none =>
    rw [call_of_none (by rw [h.sheetOf?, hh]; rfl), call_of_none (by rw [hh]; rfl)]
    exact ⟨rfl, h⟩
  | some i =>
    have hw : w.sheetOf? handle = some i := (h.sheetOf? handle).trans hh
    cases hr : v.sheets[i]? with
    | none =>
      rw [call_of_none (by rw [hw]; exact h.missing hr), call_of_none (by rw [hh]; exact hr)]
      exact ⟨rfl, h⟩
    | some r =>
      by_cases hi : i = id
      · subst hi
        rw [call_eq_apply hw (h.aged hr), call_eq_apply hh hr, h.debugDefault, Sheet.aged_effect]
        exact ⟨rfl, h.apply_self hr (.effect _ r c)⟩
      · rw [call_eq_apply hw ((h.sheet_ne hi).trans hr), call_eq_apply hh hr, h.debugDefault]
        exact ⟨rfl, h.apply_ne hi _⟩

/-- An old task does nothing. -/
theorem runTask_old (h : Ahead id k first n w v) {task : FlushTask} (ht : task.isOld id first = true) :
    w.runTask task = w := by
  obtain ⟨hid, hlt⟩ : task.sheet = id ∧ task.token < first := by simpa [FlushTask.isOld] using ht
  cases hr : v.sheets[id]? with
  | none => exact runTask_of_none task (hid ▸ h.missing hr)
  | some r =>
    refine runTask_of_stale task (hid ▸ h.aged hr) fun he => ?_
    have hfirst := h.current r hr
    have he : task.token = r.tracker.token + k := he
    omega

/-- Corresponding tasks do the same on both sides. -/
theorem runTask (h : Ahead id k first n w v) (task : FlushTask) :
    Ahead id k first n (w.runTask (task.aged id k)) (v.runTask task) := by
  have hsheet : (task.aged id k).sheet = task.sheet := by unfold FlushTask.aged; split <;> rfl
  have hcurrent : w.isCurrent (task.aged id k) = v.isCurrent task := by
    rw [isCurrent, isCurrent, hsheet]
    by_cases hid : task.sheet = id
    · subst hid
      rw [h.sheet_self, FlushTask.aged, if_pos rfl]
      cases v.sheets[task.sheet]? with
      | none => rfl
      | some r => simp [Sheet.aged]
    · rw [h.sheet_ne hid, FlushTask.aged, if_neg hid]
  have hflush : Ahead id k first n (w.flush task.sheet) (v.flush task.sheet) := by
    cases hr : v.sheets[task.sheet]? with
    | none =>
      rw [flush_of_missing hr, flush_of_missing (h.missing hr)]
      exact h
    | some r =>
      by_cases hid : task.sheet = id
      · subst hid
        have he : r.flushEffect.Follows (fun _ => False) r := .flushEffect r
        rw [flush_eq_apply (h.aged hr), flush_eq_apply hr, Sheet.aged_flushEffect]
        exact h.apply_self hr he
      · rw [flush_eq_apply ((h.sheet_ne hid).trans hr), flush_eq_apply hr]
        exact h.apply_ne hid _
  simp only [World.runTask, hsheet, h.isAlive, hcurrent]
  split
  · exact hflush
  · exact h

theorem foldl {tasks tasks' : List FlushTask} (h : Ahead id k first n w v)
    (ht : tasks.filter (fun t => !t.isOld id first) = tasks'.map (FlushTask.aged id k)) :
    Ahead id k first n (tasks.foldl World.runTask w) (tasks'.foldl World.runTask v) := by
  induction tasks generalizing w v tasks' with
  | nil =>
    obtain rfl : tasks' = [] := List.map_eq_nil_iff.mp ht.symm
    exact h
  | cons t rest ih =>
    cases hold : t.isOld id first with
    | true =>
      rw [List.filter_cons_of_neg (by simp [hold])] at ht
      rw [List.foldl_cons, h.runTask_old hold]
      exact ih h ht
    | false =>
      rw [List.filter_cons_of_pos (by simp [hold])] at ht
      obtain ⟨t', rest', rfl, rfl, hrest⟩ := List.map_eq_cons_iff.mp ht.symm
      rw [List.foldl_cons, List.foldl_cons]
      exact ih (h.runTask t') hrest.symm

/-- A tick counts the old tasks as well, and then they are gone. -/
theorem tick (h : Ahead id k first n w v) :
    w.tick.1 = v.tick.1 + n ∧ Ahead id k first 0 w.tick.2 v.tick.2 := by
  constructor
  · show w.queue.length = v.queue.length + n
    have hlive : w.queue.countP (fun t => !t.isOld id first) = v.queue.length := by
      rw [List.countP_eq_length_filter, h.queue, List.length_map]
    rw [List.length_eq_countP_add_countP (FlushTask.isOld id first), h.left, Nat.add_comm, ← hlive]
    simp
  · rw [tick_eq, tick_eq]
    refine foldl (w := { w with queue := [] }) (v := { v with queue := [] }) ?_ h.queue
    exact ⟨h.sheets, h.targets, h.handles, h.detector, h.environment, rfl, rfl, h.current⟩

end Ahead

theorem call_ne_count (w : World) (handle : Nat) (c : Call) (m : Nat) :
    (w.call handle c).1 ≠ .ok (.count m) := by
  rcases call_cases w handle c with h | ⟨i, s, -, -, h⟩
  · rw [h]
    exact nofun
  · rw [h]
    exact s.effect_ne_count _ c m

theorem step_ne_count (w : World) {x : Step} (hx : x ≠ .tick) (m : Nat) : (w.step x).1 ≠ .ok (.count m) := by
  cases x with
  | tick => exact absurd rfl hx
  | call handle c => exact call_ne_count w handle c m
  | write | clone | drop | detect | setEnvironment => exact nofun

/-- The step lemma. -/
theorem Ahead.step (h : Ahead id k first n w v) {x : Step} (hx : x ≠ .tick) :
    (w.step x).1 = (v.step x).1 ∧ Ahead id k first n (w.step x).2 (v.step x).2 := by
  cases x with
  | tick => exact absurd rfl hx
  | call handle c => exact h.call handle c
  | write target text =>
    exact ⟨rfl, { h with targets := congrArg (fun ts => ts.modify target (·.write text)) h.targets }⟩
  | clone handle =>
    refine ⟨rfl, { h with handles := ?_ }⟩
    show w.handles ++ [w.sheetOf? handle] = v.handles ++ [v.sheetOf? handle]
    rw [h.sheetOf?, h.handles]
  | drop handle => exact ⟨rfl, { h with handles := congrArg (List.set · handle none) h.handles }⟩
  | detect mode => exact ⟨rfl, { h with detector := rfl }⟩
  | setEnvironment environment => exact ⟨rfl, { h with environment := rfl }⟩

/-- The run lemma: the same answers but for the first count, and the same world but for tokens. -/
theorem Ahead.run (h : Ahead id k first n w v) (steps : List Step) :
    (w.run steps).1 = countMore n (v.run steps).1 ∧
      ∃ left, Ahead id k first left (w.run steps).2 (v.run steps).2 := by
  induction steps generalizing w v n with
  | nil => exact ⟨rfl, n, h⟩
  | cons x rest ih =>
    by_cases hx : x = .tick
    · subst hx
      obtain ⟨hcount, h'⟩ := h.tick
      obtain ⟨hanswers, hworld⟩ := ih h'
      refine ⟨?_, hworld⟩
      show Except.ok (.count w.tick.1) :: (w.tick.2.run rest).1 =
        countMore n (.ok (.count v.tick.1) :: (v.tick.2.run rest).1)
      rw [countMore, hcount, hanswers, countMore_zero]
    · obtain ⟨he, h'⟩ := h.step hx
      obtain ⟨hanswers, hworld⟩ := ih h'
      refine ⟨?_, hworld⟩
      show (w.step x).1 :: ((w.step x).2.run rest).1 = countMore n ((v.step x).1 :: ((v.step x).2.run rest).1)
      rw [countMore_cons (step_ne_count v hx), he, hanswers]

/-! ## Sheets of a run -/

/-- What can be relied on for the sheet `s` under `id` after any run: it has the settings of its
configuration, its own target is untouched until it becomes the outlet, and no task is ahead of it. -/
structure Reached (id : Nat) (config : SheetConfig) (w : World) (s : Sheet) : Prop where
  sheet : w.sheets[id]? = some s
  autoTarget : s.autoTarget = config.autoTarget
  debug : s.debug? = config.debug?
  delivery : s.delivery = config.delivery
  own : s.outlet? = none → s.own = {}
  issued : ∀ t ∈ w.queue, t.sheet = id → t.token ≤ s.tracker.token

theorem Reached.apply {new : Nat → Prop} (h : Reached id config w s) (he : e.Follows new s) :
    Reached id config (w.apply id e) e.sheet where
  sheet := apply_sheet h.sheet e
  autoTarget := he.autoTarget.trans h.autoTarget
  debug := he.debug.trans h.debug
  delivery := he.delivery.trans h.delivery
  own := fun hn => (he.own hn).2.trans (h.own (he.own hn).1)
  issued := fun t ht hid => by
    rcases List.mem_append.mp ht with ht | ht
    · exact Nat.le_trans (h.issued t ht hid) he.token
    · obtain ⟨m, hm, rfl⟩ := List.mem_map.mp ht
      exact (he.tokens m hm).2

theorem Reached.apply_ne {j : Nat} (h : Reached id config w s) (hj : j ≠ id) (e : Effect) :
    Reached id config (w.apply j e) s where
  sheet := (apply_sheet_ne (Ne.symm hj) e).trans h.sheet
  autoTarget := h.autoTarget
  debug := h.debug
  delivery := h.delivery
  own := h.own
  issued := fun t ht hid => by
    rcases List.mem_append.mp ht with ht | ht
    · exact h.issued t ht hid
    · obtain ⟨m, -, rfl⟩ := List.mem_map.mp ht
      exact absurd hid hj

/-- An effect on any sheet. -/
theorem reached_apply {i : Nat} {new : Nat → Prop} (h : ∃ s, Reached id config w s)
    (hr : w.sheets[i]? = some r) (he : e.Follows new r) : ∃ s, Reached id config (w.apply i e) s := by
  obtain ⟨s, h⟩ := h
  by_cases hi : i = id
  · subst hi
    obtain rfl : s = r := Option.some.inj (h.sheet.symm.trans hr)
    exact ⟨_, h.apply he⟩
  · exact ⟨s, h.apply_ne hi e⟩

theorem reached_step (h : ∃ s, Reached id config w s) (x : Step) : ∃ s, Reached id config (w.step x).2 s := by
  cases x with
  | write | clone | drop | detect | setEnvironment =>
    obtain ⟨s, h⟩ := h
    exact ⟨s, h.sheet, h.autoTarget, h.debug, h.delivery, h.own, h.issued⟩
  | call handle c =>
    show ∃ s, Reached id config (w.call handle c).2 s
    rcases call_cases w handle c with hc | ⟨i, r, -, hr, hc⟩
    · rwa [hc]
    · rw [hc]
      exact reached_apply h hr (.effect _ r c)
  | tick =>
    show ∃ s, Reached id config w.tick.2 s
    rw [tick_eq]
    have hflush : ∀ v i r, (∃ s, Reached id config v s) → v.sheets[i]? = some r → v.isAlive i = true →
        ∃ s, Reached id config (v.apply i r.flushEffect) s := by
      intro v i r hv hr _
      have he : r.flushEffect.Follows (fun _ => False) r := .flushEffect r
      exact reached_apply hv hr he
    refine foldl_runTask_induction hflush w.queue ?_
    obtain ⟨s, h⟩ := h
    exact ⟨s, h.sheet, h.autoTarget, h.debug, h.delivery, h.own, fun _ ht => absurd ht List.not_mem_nil⟩

theorem reached_run (h : ∃ s, Reached id config w s) (steps : List Step) :
    ∃ s, Reached id config (w.run steps).2 s := by
  induction steps generalizing w with
  | nil => exact h
  | cons x rest ih => exact ih (reached_step h x)

theorem reached_start {configs : List SheetConfig} (targets : Nat) (hc : configs[id]? = some config) :
    ∃ s, Reached id config (start configs targets) s :=
  ⟨Sheet.ofConfig config, by simp [start, hc], rfl, rfl, rfl, fun _ => rfl,
    fun _ ht => absurd ht List.not_mem_nil⟩

/-! ## The sheet made anew -/

/-- An outlet is attached to a sheet that has none, and receives its text. -/
def attach (w : World) (id : Nat) (s : Sheet) (o : Outlet) : World :=
  (w.modifySheet id fun s => s.issueToken.flushedTo o).writeOutlet id s.css o

theorem attach_eq_apply (hs : w.sheets[id]? = some s) (o : Outlet) :
    w.attach id s o = w.apply id ((s.issueToken.flushedTo o).sent s.css o) := by
  have hattached : w.modifySheet id (fun s => s.issueToken.flushedTo o) = _ := modifySheet_eq_apply hs _
  rw [attach, hattached, writeOutlet_eq_apply (apply_sheet hs _), apply_apply]
  rfl

/-- The world with a fresh sheet of the configuration in place of the sheet `s` under `id`. No task is
queued for it, and it has the outlet of `s`, if `s` has one. A target that `s` made is passed on as it is. -/
def renewed (w : World) (id : Nat) (config : SheetConfig) (s : Sheet) : World :=
  let fresh := { Sheet.ofConfig config with own := s.own }
  let replaced := { w with
    sheets := w.sheets.set id fresh
    queue := w.queue.filter (·.sheet ≠ id) }
  match s.outlet? with
  | none => replaced
  | some o => replaced.attach id fresh o

theorem set_aged (sheets : List Sheet) (s : Sheet) :
    sheets.set id (s.aged k) = (sheets.set id s).modify id (Sheet.aged k) := by
  refine List.ext_getElem? fun j => ?_
  simp only [List.getElem?_set, List.getElem?_modify]
  by_cases hj : id = j
  · subst hj
    by_cases hlt : id < sheets.length <;> simp [hlt]
  · simp [hj]

/-- The world after `reinit` is ahead of the one with a fresh sheet. -/
theorem Reached.ahead (h : Reached id config w s) :
    ∃ k, Ahead id k (s.tracker.token + 1) (w.queue.countP (·.sheet = id)) (w.apply id s.reinitEffect)
      (w.renewed id config s) := by
  have hold : ∀ t ∈ w.queue, t.isOld id (s.tracker.token + 1) = decide (t.sheet = id) := by
    intro t ht
    by_cases hid : t.sheet = id
    · have hle := h.issued t ht hid
      simp [FlushTask.isOld, hid]
      omega
    · simp [FlushTask.isOld, hid]
  have hleft : w.queue.countP (FlushTask.isOld id (s.tracker.token + 1)) = w.queue.countP (·.sheet = id) :=
    List.countP_congr fun t ht => by rw [hold t ht]
  have hqueue : ∀ k, w.queue.filter (fun t => !t.isOld id (s.tracker.token + 1)) =
      (w.queue.filter (·.sheet ≠ id)).map (FlushTask.aged id k) := by
    intro k
    rw [List.map_congr_left (g := fun t => t), List.map_id']
    · exact List.filter_congr fun t ht => by rw [hold t ht]; simp
    · intro t ht
      have hid : t.sheet ≠ id := by simpa using (List.mem_filter.mp ht).2
      exact if_neg hid
  obtain ⟨hlt, -⟩ := List.getElem?_eq_some_iff.mp h.sheet
  cases ho : s.outlet? with
  | none =>
    refine ⟨s.tracker.token + 1, ?_⟩
    simp only [Sheet.reinitEffect, renewed, ho]
    have hfresh : s.reinit = Sheet.aged (s.tracker.token + 1) { Sheet.ofConfig config with own := s.own } := by
      simp [Sheet.reinit, Sheet.aged, Sheet.ofConfig, Tracker.reset, ho, h.autoTarget, h.debug, h.delivery]
    refine ⟨?_, rfl, rfl, rfl, rfl, ?_, ?_, fun r hr => Nat.le_add_left _ _⟩
    · rw [hfresh]
      exact set_aged _ _
    · rw [World.apply, List.map_nil, List.append_nil]
      exact hqueue _
    · rw [World.apply, List.map_nil, List.append_nil]
      exact hleft
  | some o =>
    refine ⟨s.tracker.token, ?_⟩
    simp only [Sheet.reinitEffect, renewed, ho]
    generalize hfresh : ({ Sheet.ofConfig config with own := s.own } : Sheet) = fresh
    have hattached : s.reinit = (fresh.issueToken.flushedTo o).aged s.tracker.token := by
      subst hfresh
      simp [Sheet.reinit, Sheet.aged, Sheet.ofConfig, Sheet.issueToken, Sheet.flushedTo, Sheet.version, Tracker.reset,
        Tracker.issueToken, Tracker.flushed, ho, h.autoTarget, h.debug, h.delivery, Nat.add_comm 1]
    have hcss : fresh.css = "" := by rw [← hfresh]; rfl
    have htoken : (fresh.issueToken.flushedTo o).tracker.token = 1 := by rw [← hfresh]; rfl
    rw [attach_eq_apply (List.getElem?_set_self hlt), hattached, hcss, Sheet.aged_sent]
    -- the two effects queue nothing, and they differ in the tokens of their sheets only
    refine ⟨?_, rfl, rfl, rfl, rfl, ?_, ?_, fun r hr => ?_⟩
    · simp only [World.apply, List.set_set]
      exact set_aged _ _
    · simpa [World.apply, Effect.aged, Sheet.sent] using hqueue s.tracker.token
    · simpa [World.apply, Effect.aged, Sheet.sent] using hleft
    · obtain rfl := Option.some.inj ((apply_sheet (List.getElem?_set_self hlt) _).symm.trans hr)
      simp [Sheet.sent, htoken, Nat.add_comm]

/-- A sheet that was reinitialised cannot be told from a fresh one with the same outlet. Whatever happened
before and whatever is done later, with any steps between: the answers are the same, but that the first tick
counts the tasks left over; the text, the version and the outlet of the sheet are the same, and so are all
targets with their writes; and a task left over does nothing when it runs. -/
theorem reinit_renews (configs : List SheetConfig) (targets : Nat) (history later : List Step) {handle : Nat}
    (hc : configs[id]? = some config) (hh : ((start configs targets).run history).2.sheetOf? handle = some id) :
    let w := ((start configs targets).run history).2
    ∃ s, w.sheets[id]? = some s ∧ (s.outlet? = none → s.own = {}) ∧
      let used := (w.call handle .reinit).2.run later
      let fresh := (w.renewed id config s).run later
      used.1 = countMore (w.queue.countP (·.sheet = id)) fresh.1 ∧
      used.2.targets = fresh.2.targets ∧
      (∃ a b, used.2.sheets[id]? = some a ∧ fresh.2.sheets[id]? = some b ∧
        a.css = b.css ∧ a.version = b.version ∧ a.outlet? = b.outlet? ∧ a.own = b.own) ∧
      (∀ j, j ≠ id → used.2.sheets[j]? = fresh.2.sheets[j]?) ∧
      ∀ before task after, used.2.queue = before ++ task :: after → task ∈ w.queue → task.sheet = id →
        (used.2.midTick before).runTask task = used.2.midTick before := by
  intro w
  obtain ⟨s, h⟩ : ∃ s, Reached id config w s := reached_run (reached_start targets hc) history
  obtain ⟨k, hahead⟩ := h.ahead
  have hcall : (w.call handle .reinit).2 = w.apply id s.reinitEffect := by
    rw [call_eq_apply hh h.sheet]
    rfl
  refine ⟨s, h.sheet, h.own, ?_⟩
  intro used fresh
  rw [← hcall] at hahead
  obtain ⟨hanswers, left, hworld⟩ : used.1 = _ ∧ ∃ left, Ahead id k _ left used.2 fresh.2 := hahead.run later
  obtain ⟨a, ha⟩ : ∃ a, Reached id config used.2 a := reached_run (reached_step ⟨s, h⟩ (.call handle .reinit)) later
  obtain ⟨b, hb, rfl⟩ := Option.map_eq_some_iff.mp (hworld.sheet_self.symm.trans ha.sheet)
  refine ⟨hanswers, hworld.targets, ⟨_, b, ha.sheet, hb, rfl, rfl, rfl, rfl⟩, fun j hj => hworld.sheet_ne hj, ?_⟩
  intro before task after hq hm hid
  obtain ⟨a', ha', hkept⟩ := kept_foldl (w := { used.2 with queue := [] }) ha.sheet before
  subst hid
  refine runTask_of_stale task ha' ?_
  have hold := h.issued task hm rfl
  have hcurrent := hworld.current b hb
  have htoken : a'.tracker.token = b.tracker.token + k := hkept.token
  omega

/-- A flush is queued when the sheet is reinitialised, and another one after it. -/
def leftOverRun : List Step := [.call 0 (.setTarget 0), .call 0 (.cssRaw "a")]

theorem reinit_renews_leftOverRun :
    let w := ((start [{}] 1).run leftOverRun).2
    let later := [.call 0 (.cssRaw "b"), .tick]
    let used := (w.call 0 .reinit).2.run later
    used.1 = [.ok .done, .ok (.count 2)] ∧ used.2.targets = [⟨"b", 3⟩] ∧
      ∃ s, w.sheets[0]? = some s ∧ ((w.renewed 0 {} s).run later).1 = [.ok .done, .ok (.count 1)] ∧
        ((w.renewed 0 {} s).run later).2.targets = used.2.targets := by
  have hc : ([{}] : List SheetConfig)[0]? = some { autoTarget := false } := rfl
  have hh : ((start [{}] 1).run leftOverRun).2.sheetOf? 0 = some 0 := rfl
  obtain ⟨s, hs, -, -, htargets, -⟩ :=
    reinit_renews [{}] 1 leftOverRun [.call 0 (.cssRaw "b"), .tick] hc hh
  refine ⟨rfl, rfl, s, hs, ?_, htargets.symm⟩
  obtain rfl := Option.some.inj hs
  rfl

end World

end StyleEngine
