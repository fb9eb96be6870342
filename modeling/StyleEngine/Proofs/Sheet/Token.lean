import StyleEngine.Proofs.Sheet.Synchrony

/-!
# Tokens

What a step other than a tick can do to a sheet on the tick scheduler is said once, by `Moves`: it leaves
the sheet alone, or it defers flushes and queues a task for each token it issues (`Deferred`), or it
issues one token without a task and so makes all queued tasks stale. Hence the tasks of a sheet stand in
the queue in the order of their tokens, and none is ahead of the tracker (`pending_run`).
-/

namespace StyleEngine

/-- Operations that issue a token without a task. -/
def Call.Cancels : Call → Prop
  | .setTarget _ | .forceRender | .reinit => True
  | _ => False

namespace World

variable {w w' w'' : World} {id i n : Nat} {s s' s'' : Sheet} {x : Step} {new : List FlushTask}

/-! ## Operations on one sheet -/

/-- All was done on behalf of the sheet `i`: other sheets stay as they are, and new tasks are its own. -/
structure On (i : Nat) (w w' : World) : Prop where
  others : ∀ j, j ≠ i → w'.sheets[j]? = w.sheets[j]?
  queue : ∃ new, w'.queue = w.queue ++ new ∧ ∀ t ∈ new, t.sheet = i

theorem On.of_queue_eq (ho : ∀ j, j ≠ i → w'.sheets[j]? = w.sheets[j]?) (hq : w'.queue = w.queue) :
    On i w w' :=
  ⟨ho, [], by rw [hq, List.append_nil], fun _ hm => absurd hm List.not_mem_nil⟩

theorem On.refl (w : World) : On i w w := .of_queue_eq (fun _ _ => rfl) rfl

theorem On.trans (h : On i w w') (h' : On i w' w'') : On i w w'' := by
  obtain ⟨new, hq, hn⟩ := h.queue
  obtain ⟨new', hq', hn'⟩ := h'.queue
  refine ⟨fun j hj => (h'.others j hj).trans (h.others j hj), new ++ new', ?_, fun t hm => ?_⟩
  · rw [hq', hq, List.append_assoc]
  · rcases List.mem_append.mp hm with hm | hm
    · exact hn t hm
    · exact hn' t hm

theorem on_modifySheet (f : Sheet → Sheet) : On i w (w.modifySheet i f) :=
  .of_queue_eq (fun _ hj => modifySheet_ne (Ne.symm hj)) rfl

theorem on_writeOutlet {text : String} {o : Outlet} : On i w (w.writeOutlet i text o) :=
  .of_queue_eq (fun _ hj => writeOutlet_ne (Ne.symm hj)) writeOutlet_queue

theorem on_flush : On i w (w.flush i) := by
  unfold flush
  split
  · exact .refl w
  · split
    · exact .refl w
    · exact (on_modifySheet _).trans on_writeOutlet

theorem on_runTask (task : FlushTask) : On task.sheet w (w.runTask task) := by
  unfold runTask
  split
  · exact on_flush
  · exact .refl w

theorem on_schedule (task : FlushTask) (delivery : Delivery) : On task.sheet w (w.schedule task delivery) := by
  cases delivery with
  | immediate => exact on_runTask task
  | onTick => exact ⟨fun _ _ => rfl, [task], rfl, fun t hm => by rw [List.mem_singleton.mp hm]⟩
  | unattended => exact .refl w

theorem on_styleUpdated : On i w (w.styleUpdated i) := by
  unfold styleUpdated
  split
  · exact .refl w
  · split
    · exact (on_modifySheet _).trans (on_schedule ⟨i, _⟩ _)
    · exact .refl w

theorem on_register (result : Except StyleError Answer × Registry) : On i w (w.register i result).2 := by
  rcases result with ⟨_ | answer, registry⟩
  · exact on_modifySheet _
  · exact (on_modifySheet _).trans on_styleUpdated

theorem on_stylesheet (named : List (String × Description)) (classes : List (String × String)) :
    On i w (w.stylesheet i classes named).2 := by
  induction named generalizing w classes with
  | nil => exact .refl w
  | cons entry rest ih =>
    obtain ⟨name, d⟩ := entry
    unfold stylesheet
    split
    · exact .refl w
    · next s _ =>
      have hs : On i w (w.style i s [some (d.withDebugName name)]).2 := on_register _
      split
      · next c w₁ he => rw [he] at hs; exact hs.trans (ih _)
      · exact hs

theorem on_setTarget (target : Nat) : On i w (w.setTarget i s target) := by
  unfold setTarget
  split
  · exact (on_modifySheet _).trans on_writeOutlet
  · exact ((on_modifySheet _).trans on_writeOutlet).trans on_writeOutlet

theorem on_reinit : On i w (w.reinit i s) := by
  unfold reinit
  split
  · exact on_modifySheet _
  · exact (on_modifySheet _).trans on_writeOutlet

theorem on_perform (c : Call) : On i w (w.perform i s c).2 := by
  cases c with
  | style | cssRule | keyframes | fontFace => exact on_register _
  | cssRaw css =>
    simp only [perform]
    split
    · exact .refl w
    · exact (on_modifySheet _).trans on_styleUpdated
  | stylesheet named => exact on_stylesheet named []
  | setTarget target => exact on_setTarget target
  | forceRender => exact (on_modifySheet _).trans on_flush
  | reinit => exact on_reinit

/-- An operation through a handle that is not one of the sheet `id`. -/
theorem on_call_of_ne {handle : Nat} (hh : w.sheetOf? handle ≠ some id) (c : Call) :
    ∃ i, i ≠ id ∧ On i w (w.call handle c).2 := by
  unfold call
  split
  · exact ⟨id + 1, Nat.succ_ne_self id, .refl w⟩
  · next i hi =>
    have hid : i ≠ id := fun he => hh (he ▸ hi)
    split
    · exact ⟨i, hid, .refl w⟩
    · exact ⟨i, hid, on_perform c⟩

/-! ## Deferred flushes -/

/-- The tasks of the next `n` tokens of a sheet. -/
def issued (id token n : Nat) : List FlushTask := (List.range' (token + 1) n).map (FlushTask.mk id)

theorem issued_append (id token n m : Nat) :
    issued id token n ++ issued id (token + n) m = issued id token (n + m) := by
  rw [issued, issued, issued, ← List.map_append, Nat.add_right_comm, List.range'_append_1]

theorem mem_issued {token : Nat} {t : FlushTask} (h : t ∈ issued id token n) :
    t.sheet = id ∧ token < t.token ∧ t.token ≤ token + n := by
  obtain ⟨k, hk, rfl⟩ := List.mem_map.mp h
  obtain ⟨hlow, hhigh⟩ := List.mem_range'_1.mp hk
  exact ⟨rfl, hlow, show k ≤ token + n by omega⟩

/-- Among the tasks that are issued together, the last one carries the last token. -/
theorem token_of_issued {token : Nat} {before after : List FlushTask} {task : FlushTask}
    (h : issued id token n = before ++ task :: after) : task.token = token + n ↔ after = [] := by
  have hlength : n = before.length + (after.length + 1) := by simpa [issued] using congrArg List.length h
  have hget : (issued id token n)[before.length]? = some task := by rw [h]; simp
  have htask : (⟨id, token + 1 + before.length⟩ : FlushTask) = task := by
    rw [issued, List.getElem?_map, List.getElem?_range' (by omega), Nat.one_mul] at hget
    exact Option.some.inj hget
  rw [← htask, ← List.length_eq_zero_iff]
  constructor
  · intro hlast
    have hlast : token + 1 + before.length = token + n := hlast
    omega
  · intro hnone
    show token + 1 + before.length = token + n
    omega

/-- The sheet deferred `n` flushes and queued a task for each. Nothing was written. -/
structure Deferred (id n : Nat) (w w' : World) (s s' : Sheet) : Prop where
  sheet : w'.sheets[id]? = some s'
  queue : w'.queue = w.queue ++ issued id s.tracker.token n
  token : s'.tracker.token = s.tracker.token + n
  outlet : s'.outlet? = s.outlet?
  own : s'.own = s.own
  autoTarget : s'.autoTarget = s.autoTarget
  delivery : s'.delivery = s.delivery
  targets : w'.targets = w.targets
  flushable : 0 < n → s.canFlush = true

namespace Deferred

theorem refl (hs : w.sheets[id]? = some s) : Deferred id 0 w w s s :=
  ⟨hs, (List.append_nil _).symm, rfl, rfl, rfl, rfl, rfl, rfl, fun h => absurd h (Nat.lt_irrefl 0)⟩

theorem canFlush_eq (h : Deferred id n w w' s s') : s'.canFlush = s.canFlush := by
  rw [Sheet.canFlush, h.outlet, h.autoTarget, Sheet.canFlush]

theorem trans {m : Nat} (h : Deferred id n w w' s s') (h' : Deferred id m w' w'' s' s'') :
    Deferred id (n + m) w w'' s s'' where
  sheet := h'.sheet
  queue := by rw [h'.queue, h.queue, h.token, List.append_assoc, issued_append]
  token := by rw [h'.token, h.token, Nat.add_assoc]
  outlet := h'.outlet.trans h.outlet
  own := h'.own.trans h.own
  autoTarget := h'.autoTarget.trans h.autoTarget
  delivery := h'.delivery.trans h.delivery
  targets := h'.targets.trans h.targets
  flushable := fun hpos => by
    rcases Nat.eq_zero_or_pos n with rfl | hn
    · rw [← h.canFlush_eq]
      exact h'.flushable (by omega)
    · exact h.flushable hn

end Deferred

/-- A change of the sheet that concerns neither its outlet nor its token. -/
theorem deferred_modifySheet {f : Sheet → Sheet} (hs : w.sheets[id]? = some s)
    (htoken : (f s).tracker.token = s.tracker.token) (houtlet : (f s).outlet? = s.outlet?)
    (hown : (f s).own = s.own) (hauto : (f s).autoTarget = s.autoTarget) (hd : (f s).delivery = s.delivery) :
    Deferred id 0 w (w.modifySheet id f) s (f s) :=
  ⟨modifySheet_self hs, (List.append_nil _).symm, htoken, houtlet, hown, hauto, hd, rfl,
    fun h => absurd h (Nat.lt_irrefl 0)⟩

/-- An update either finds nothing to do or issues one token and queues its task. -/
theorem deferred_styleUpdated (hs : w.sheets[id]? = some s) (hd : s.delivery = .onTick) :
    ∃ n s', Deferred id n w (w.styleUpdated id) s s' := by
  unfold styleUpdated
  rw [hs]
  by_cases hf : (s.needsFlush && s.canFlush) = true
  · simp only [hf, if_true, hd]
    exact ⟨1, s.issueToken, modifySheet_self hs, rfl, rfl, rfl, rfl, rfl, rfl, rfl,
      fun _ => (Bool.and_eq_true_iff.mp hf).2⟩
  · simp only [hf]
    exact ⟨0, s, .refl hs⟩

theorem deferred_register (hs : w.sheets[id]? = some s) (hd : s.delivery = .onTick)
    (result : Except StyleError Answer × Registry) : ∃ n s', Deferred id n w (w.register id result).2 s s' := by
  obtain ⟨answer, registry⟩ := result
  have hstored : Deferred id 0 w (w.modifySheet id fun s => { s with registry }) s { s with registry } :=
    deferred_modifySheet hs rfl rfl rfl rfl rfl
  cases answer with
  | error e => exact ⟨0, { s with registry }, hstored⟩
  | ok answer =>
    obtain ⟨n, s', h⟩ := deferred_styleUpdated hstored.sheet hd
    exact ⟨0 + n, s', hstored.trans h⟩

theorem deferred_stylesheet (hs : w.sheets[id]? = some s) (hd : s.delivery = .onTick)
    (named : List (String × Description)) (classes : List (String × String)) :
    ∃ n s', Deferred id n w (w.stylesheet id classes named).2 s s' := by
  induction named generalizing w s classes with
  | nil => exact ⟨0, s, .refl hs⟩
  | cons entry rest ih =>
    obtain ⟨name, d⟩ := entry
    obtain ⟨n, s₁, h⟩ : ∃ n s₁, Deferred id n w (w.style id s [some (d.withDebugName name)]).2 s s₁ :=
      deferred_register hs hd _
    simp only [stylesheet, hs]
    split
    · next c w₁ he =>
      rw [he] at h
      -- each class is registered on its own and may defer a flush of its own
      obtain ⟨m, s', h'⟩ := ih h.sheet (h.delivery.trans hd) (Keyed.put name c classes)
      exact ⟨n + m, s', h.trans h'⟩
    · exact ⟨n, s₁, h⟩

theorem deferred_perform (hs : w.sheets[id]? = some s) (hd : s.delivery = .onTick) {c : Call}
    (hc : ¬ c.Cancels) : ∃ n s', Deferred id n w (w.perform id s c).2 s s' := by
  cases c with
  | style | cssRule | keyframes | fontFace => exact deferred_register hs hd _
  | cssRaw css =>
    simp only [perform]
    split
    · exact ⟨0, s, .refl hs⟩
    · have hmarked : Deferred id 0 w
          (w.modifySheet id fun s => { s with raw := s.raw ++ css, tracker := s.tracker.markRaw }) s
          { s with raw := s.raw ++ css, tracker := s.tracker.markRaw } :=
        deferred_modifySheet hs rfl rfl rfl rfl rfl
      obtain ⟨n, s', h⟩ := deferred_styleUpdated hmarked.sheet hd
      exact ⟨0 + n, s', hmarked.trans h⟩
  | stylesheet named => exact deferred_stylesheet hs hd named []
  | setTarget | forceRender | reinit => exact absurd trivial hc

/-! ## Flushes -/

theorem nextOutlet?_of_some {o : Outlet} (ho : s.outlet? = some o) : s.nextOutlet? = some o := by
  rw [Sheet.nextOutlet?, ho, Option.some_or]

theorem isSome_nextOutlet? (s : Sheet) : s.nextOutlet?.isSome = s.canFlush := by
  unfold Sheet.nextOutlet? Sheet.canFlush
  cases s.outlet? with
  | some o => rfl
  | none => cases s.autoTarget <;> rfl

theorem flush_of_some {o : Outlet} (hs : w.sheets[id]? = some s) (ho : s.nextOutlet? = some o) :
    w.flush id = (w.modifySheet id (·.flushedTo o)).writeOutlet id s.css o := by
  simp only [flush, hs, ho]

theorem flush_of_none (hs : w.sheets[id]? = some s) (ho : s.nextOutlet? = none) : w.flush id = w := by
  simp only [flush, hs, ho]

/-- The sheet after a flush. -/
theorem sheet_flush {o : Outlet} (hs : w.sheets[id]? = some s) (ho : s.nextOutlet? = some o) :
    (w.flush id).sheets[id]? = some ((s.flushedTo o).received s.css o) := by
  rw [flush_of_some hs ho]
  exact writeOutlet_self (modifySheet_self hs)

/-- What writing does not change: the token and when flushes run. An outlet is never given up. -/
structure Kept (s s' : Sheet) : Prop where
  token : s'.tracker.token = s.tracker.token
  delivery : s'.delivery = s.delivery
  canFlush : s.canFlush = true → s'.canFlush = true

theorem Kept.refl (s : Sheet) : Kept s s := ⟨rfl, rfl, fun h => h⟩

theorem Kept.trans (h : Kept s s') (h' : Kept s' s'') : Kept s s'' :=
  ⟨h'.token.trans h.token, h'.delivery.trans h.delivery, fun hc => h'.canFlush (h.canFlush hc)⟩

theorem kept_flushedTo (s : Sheet) (o : Outlet) : Kept s (s.flushedTo o) := ⟨rfl, rfl, fun _ => rfl⟩

theorem kept_received (s : Sheet) (text : String) (o : Outlet) : Kept s (s.received text o) := by
  cases o <;> exact ⟨rfl, rfl, fun h => h⟩

theorem kept_flush (hs : w.sheets[id]? = some s) : ∃ s', (w.flush id).sheets[id]? = some s' ∧ Kept s s' := by
  cases ho : s.nextOutlet? with
  | none => exact ⟨s, by rw [flush_of_none hs ho, hs], .refl s⟩
  | some o => exact ⟨_, sheet_flush hs ho, (kept_flushedTo s o).trans (kept_received _ _ o)⟩

theorem kept_runTask (hs : w.sheets[id]? = some s) (task : FlushTask) :
    ∃ s', (w.runTask task).sheets[id]? = some s' ∧ Kept s s' := by
  by_cases ht : task.sheet = id
  · unfold runTask
    split
    · rw [ht]
      exact kept_flush hs
    · exact ⟨s, hs, .refl s⟩
  · exact ⟨s, by rw [(on_runTask task).others id (Ne.symm ht), hs], .refl s⟩

theorem kept_foldl (hs : w.sheets[id]? = some s) (tasks : List FlushTask) :
    ∃ s', (tasks.foldl runTask w).sheets[id]? = some s' ∧ Kept s s' := by
  induction tasks generalizing w s with
  | nil => exact ⟨s, hs, .refl s⟩
  | cons t rest ih =>
    obtain ⟨s₁, hs₁, h⟩ := kept_runTask hs t
    obtain ⟨s', hs', h'⟩ := ih hs₁
    exact ⟨s', hs', h.trans h'⟩

/-- The world when a tick has run the tasks `before`. -/
def midTick (w : World) (before : List FlushTask) : World := before.foldl runTask { w with queue := [] }

/-! ## Steps -/

/-- The step is an operation on the sheet that issues a token without a task. -/
def Cancels (id : Nat) (w : World) : Step → Prop
  | .call handle c => w.sheetOf? handle = some id ∧ c.Cancels
  | _ => False

/-- What a step other than a tick can do to a sheet, with the tasks that it queues. -/
inductive Moves (id : Nat) (w : World) (x : Step) (s s' : Sheet) (new : List FlushTask) : Prop
  | aside (hx : ¬ Cancels id w x) (same : s' = s) (others : ∀ t ∈ new, t.sheet ≠ id)
  | defers (hx : ¬ Cancels id w x) (n : Nat) (token : s'.tracker.token = s.tracker.token + n)
      (tasks : new = issued id s.tracker.token n) (keeps : s'.canFlush = s.canFlush)
      (flushable : 0 < n → s.canFlush = true)
  | cancels (hx : Cancels id w x) (tasks : new = []) (kept : Kept s.issueToken s')

/-- An operation that cancels issues one token, and leaves the queue as it is. -/
theorem cancelled_perform (hs : w.sheets[id]? = some s) {c : Call} (hc : c.Cancels) :
    ∃ s', (w.perform id s c).2.sheets[id]? = some s' ∧ (w.perform id s c).2.queue = w.queue ∧
      Kept s.issueToken s' := by
  cases c with
  | style | cssRule | keyframes | fontFace | cssRaw | stylesheet => cases hc
  | setTarget target =>
    -- the outlet is stored before the writes, and they keep it
    have hattached : (w.modifySheet id fun s => s.issueToken.flushedTo (.attached target)).sheets[id]? =
        some (s.issueToken.flushedTo (.attached target)) := modifySheet_self hs
    have hkept : Kept s.issueToken (s.issueToken.flushedTo (.attached target)) := kept_flushedTo _ _
    simp only [perform, setTarget]
    split
    · exact ⟨_, writeOutlet_self hattached, by simp, hkept.trans (kept_received ..)⟩
    · exact ⟨_, writeOutlet_self (writeOutlet_self hattached), by simp,
        (hkept.trans (kept_received ..)).trans (kept_received ..)⟩
  | forceRender =>
    obtain ⟨s', hs', h⟩ := kept_flush (modifySheet_self (f := Sheet.issueToken) hs)
    exact ⟨s', hs', flush_queue, h⟩
  | reinit =>
    have hfresh : (w.modifySheet id Sheet.reinit).sheets[id]? = some s.reinit := modifySheet_self hs
    have hkept : Kept s.issueToken s.reinit := ⟨rfl, rfl, fun h => h⟩
    simp only [perform, reinit]
    split
    · exact ⟨_, hfresh, rfl, hkept⟩
    · exact ⟨_, writeOutlet_self hfresh, by simp, hkept.trans (kept_received ..)⟩

/-- The sheet `s` of the world `w` becomes a sheet of the world `v` by the step `x`. -/
def MovesTo (id : Nat) (w : World) (x : Step) (s : Sheet) (v : World) : Prop :=
  ∃ s' new, v.sheets[id]? = some s' ∧ v.queue = w.queue ++ new ∧ s'.delivery = .onTick ∧ Moves id w x s s' new

theorem movesTo_of_aside {v : World} (hs : w.sheets[id]? = some s) (hd : s.delivery = .onTick)
    (hx : ¬ Cancels id w x) (hsheet : v.sheets[id]? = w.sheets[id]?) (hq : v.queue = w.queue ++ new)
    (hn : ∀ t ∈ new, t.sheet ≠ id) : MovesTo id w x s v :=
  ⟨s, new, hsheet.trans hs, hq, hd, .aside hx rfl hn⟩

theorem movesTo_of_same {v : World} (hs : w.sheets[id]? = some s) (hd : s.delivery = .onTick)
    (hx : ¬ Cancels id w x) (hsheet : v.sheets[id]? = w.sheets[id]?) (hq : v.queue = w.queue) :
    MovesTo id w x s v :=
  movesTo_of_aside hs hd hx hsheet (hq.trans (List.append_nil _).symm) fun _ hm => absurd hm List.not_mem_nil

/-- An operation through a handle of the sheet. -/
theorem movesTo_perform {handle : Nat} (hs : w.sheets[id]? = some s) (hd : s.delivery = .onTick)
    (hh : w.sheetOf? handle = some id) (c : Call) : MovesTo id w (.call handle c) s (w.perform id s c).2 := by
  by_cases hc : c.Cancels
  · obtain ⟨s', hs', hq, hkept⟩ := cancelled_perform hs hc
    exact ⟨s', [], hs', hq.trans (List.append_nil _).symm, hkept.delivery.trans hd,
      .cancels ⟨hh, hc⟩ rfl hkept⟩
  · obtain ⟨n, s', h⟩ := deferred_perform hs hd hc
    exact ⟨s', _, h.sheet, h.queue, h.delivery.trans hd,
      .defers (fun hx => hc hx.2) n h.token rfl h.canFlush_eq h.flushable⟩

theorem movesTo_call (hs : w.sheets[id]? = some s) (hd : s.delivery = .onTick) (handle : Nat) (c : Call) :
    MovesTo id w (.call handle c) s (w.call handle c).2 := by
  by_cases hh : w.sheetOf? handle = some id
  · simp only [call, hh, hs]
    exact movesTo_perform hs hd hh c
  · obtain ⟨i, hid, hon⟩ := on_call_of_ne hh c
    obtain ⟨new, hq, hn⟩ := hon.queue
    refine movesTo_of_aside hs hd (fun hx => hh hx.1) (hon.others id hid.symm) hq fun t ht => ?_
    rw [hn t ht]
    exact hid

/-- The step lemma. -/
theorem movesTo_step (hs : w.sheets[id]? = some s) (hd : s.delivery = .onTick) (hx : x ≠ .tick) :
    MovesTo id w x s (w.step x).2 := by
  cases x with
  | tick => exact absurd rfl hx
  | call handle c => exact movesTo_call hs hd handle c
  | write | clone | drop | detect | setEnvironment =>
    refine movesTo_of_same hs hd ?_ rfl rfl
    exact fun h => h

namespace Moves

theorem token_le (h : Moves id w x s s' new) : s.tracker.token ≤ s'.tracker.token := by
  cases h with
  | aside _ same => exact Nat.le_of_eq (congrArg (·.tracker.token) same.symm)
  | defers _ n token => exact Nat.le.intro token.symm
  | cancels _ _ kept => exact Nat.le.intro kept.token.symm

theorem canFlush (h : Moves id w x s s' new) (hc : s.canFlush = true) : s'.canFlush = true := by
  cases h with
  | aside _ same => rw [same, hc]
  | defers _ n _ _ keeps => rw [keeps, hc]
  | cancels _ _ kept => exact kept.canFlush hc

/-- New tasks carry new tokens. -/
theorem mem_new (h : Moves id w x s s' new) {t : FlushTask} (ht : t ∈ new) (hid : t.sheet = id) :
    s.tracker.token < t.token ∧ t.token ≤ s'.tracker.token ∧ s.canFlush = true := by
  cases h with
  | aside _ _ others => exact absurd hid (others t ht)
  | cancels _ tasks => rw [tasks] at ht; exact absurd ht List.not_mem_nil
  | defers _ n token tasks _ flushable =>
    rw [tasks] at ht
    obtain ⟨-, hlt, hle⟩ := mem_issued ht
    exact ⟨hlt, by omega, flushable (by omega)⟩

theorem sorted_new (h : Moves id w x s s' new) :
    new.Pairwise fun t u => t.sheet = id → u.sheet = id → t.token < u.token := by
  cases h with
  | aside _ _ others => exact List.pairwise_of_forall_mem_list fun t ht _ _ hid => absurd hid (others t ht)
  | cancels _ tasks => rw [tasks]; exact .nil
  | defers _ n _ tasks =>
    rw [tasks, issued, List.pairwise_map]
    exact List.Pairwise.imp (fun hlt _ _ => hlt) (List.pairwise_lt_range' 1)

/-- A token that was issued before the step is still current exactly when the step neither queues a task
of the sheet nor cancels. -/
theorem current_iff (h : Moves id w x s s' new) {token : Nat} (ht : token ≤ s.tracker.token) :
    token = s'.tracker.token ↔
      token = s.tracker.token ∧ (∀ t ∈ new, t.sheet ≠ id) ∧ ¬ Cancels id w x := by
  cases h with
  | aside hx same others => exact ⟨fun he => ⟨same ▸ he, others, hx⟩, fun h => same ▸ h.1⟩
  | cancels hx _ kept =>
    have hnext : s'.tracker.token = s.tracker.token + 1 := kept.token
    exact ⟨fun he => by omega, fun hc => absurd hx hc.2.2⟩
  | defers hx n htoken tasks =>
    constructor
    · intro he
      obtain rfl : n = 0 := by omega
      refine ⟨by omega, fun t hm => ?_, hx⟩
      rw [tasks] at hm
      exact absurd hm List.not_mem_nil
    · rintro ⟨rfl, hnone, -⟩
      rcases Nat.eq_zero_or_pos n with rfl | hn
      · exact htoken.symm
      · -- else the first of the new tokens has its task among the new ones
        have hfirst : (⟨id, s.tracker.token + 1⟩ : FlushTask) ∈ new := by
          rw [tasks]
          exact List.mem_map_of_mem (List.mem_range'_1.mpr ⟨Nat.le_refl _, by omega⟩)
        exact absurd rfl (hnone _ hfirst)

end Moves

/-- `P` holds of every step of a run, in the world in which it is taken. -/
def Along (P : World → Step → Prop) : World → List Step → Prop
  | _, [] => True
  | w, x :: rest => P w x ∧ Along P (w.step x).2 rest

theorem along_append {P : World → Step → Prop} {first second : List Step} :
    Along P w (first ++ second) ↔ Along P w first ∧ Along P (w.run first).2 second := by
  induction first generalizing w with
  | nil => exact ⟨fun h => ⟨trivial, h⟩, fun h => h.2⟩
  | cons x rest ih =>
    show P w x ∧ Along P _ (rest ++ second) ↔ (P w x ∧ Along P _ rest) ∧ _
    rw [ih, and_assoc]
    rfl

/-! ## Pending tasks -/

/-- The tasks of a sheet on the tick scheduler are queued in the order of their tokens, none of them ahead
of the tracker, and the sheet has an outlet for them or may make one. -/
structure Pending (id : Nat) (w : World) (s : Sheet) : Prop where
  sheet : w.sheets[id]? = some s
  delivery : s.delivery = .onTick
  bounded : ∀ t ∈ w.queue, t.sheet = id → t.token ≤ s.tracker.token
  sorted : w.queue.Pairwise fun t u => t.sheet = id → u.sheet = id → t.token < u.token
  flushable : ∀ t ∈ w.queue, t.sheet = id → s.canFlush = true

theorem pending_of_queue_eq_nil (hs : w.sheets[id]? = some s) (hd : s.delivery = .onTick) (hq : w.queue = []) :
    Pending id w s := by
  refine ⟨hs, hd, ?_, ?_, ?_⟩
  all_goals rw [hq]
  · exact fun _ hm => absurd hm List.not_mem_nil
  · exact .nil
  · exact fun _ hm => absurd hm List.not_mem_nil

theorem Pending.moves (h : Pending id w s) (hs' : w'.sheets[id]? = some s') (hd : s'.delivery = .onTick)
    (hq : w'.queue = w.queue ++ new) (hm : Moves id w x s s' new) : Pending id w' s' := by
  refine ⟨hs', hd, fun t ht hid => ?_, ?_, fun t ht hid => ?_⟩
  · rw [hq] at ht
    rcases List.mem_append.mp ht with ht | ht
    · exact Nat.le_trans (h.bounded t ht hid) hm.token_le
    · exact (hm.mem_new ht hid).2.1
  · rw [hq]
    refine List.pairwise_append.mpr ⟨h.sorted, hm.sorted_new, fun t ht u hu htid huid => ?_⟩
    exact Nat.lt_of_le_of_lt (h.bounded t ht htid) (hm.mem_new hu huid).1
  · rw [hq] at ht
    rcases List.mem_append.mp ht with ht | ht
    · exact hm.canFlush (h.flushable t ht hid)
    · exact hm.canFlush (hm.mem_new ht hid).2.2

theorem pending_step (h : Pending id w s) (x : Step) : ∃ s', Pending id (w.step x).2 s' := by
  by_cases hx : x = .tick
  · subst hx
    obtain ⟨s', hs', hkept⟩ := kept_foldl (w := { w with queue := [] }) h.sheet w.queue
    refine ⟨s', pending_of_queue_eq_nil ?_ (hkept.delivery.trans h.delivery) (tick_queue w)⟩
    rw [← hs', ← tick_eq]
    rfl
  · obtain ⟨s', new, hs', hq, hd, hm⟩ := movesTo_step h.sheet h.delivery hx
    exact ⟨s', h.moves hs' hd hq hm⟩

theorem pending_run (h : Pending id w s) (steps : List Step) : ∃ s', Pending id (w.run steps).2 s' := by
  induction steps generalizing w s with
  | nil => exact ⟨s, h⟩
  | cons x rest ih =>
    obtain ⟨s₁, h₁⟩ := pending_step h x
    exact ih h₁

theorem pending_start {configs : List SheetConfig} {config : SheetConfig} (targets : Nat)
    (hc : configs[id]? = some config) (hd : config.delivery = .onTick) :
    Pending id (start configs targets) (Sheet.ofConfig config) :=
  pending_of_queue_eq_nil (by simp [start, hc]) hd rfl

end World

end StyleEngine
