import StyleEngine.Proofs.Sheet.Token

/-!
# Outlets that were given up

When a target takes the place of an outlet, that outlet is cleared by one write (`setTarget_of_some`).
From then on the sheet has another outlet (`detached_run`), and since the outlet is looked up when a task
runs, neither its operations nor its tasks touch the one it gave up, until it is attached again
(`Detached.silent`).
-/

namespace StyleEngine

namespace World

variable {w w' : World} {id : Nat} {s : Sheet} {o : Outlet} {task : FlushTask}

/-- The target behind an outlet of a sheet. -/
def targetOf? (w : World) (id : Nat) : Outlet → Option Target
  | .own => (w.sheets[id]?).map Sheet.own
  | .attached t => w.targets[t]?

theorem targetOf?_modifySheet (f : Sheet → Sheet) (hf : ∀ s, (f s).own = s.own) (o : Outlet) :
    (w.modifySheet id f).targetOf? id o = w.targetOf? id o := by
  cases o with
  | attached t => rfl
  | own => cases hs : w.sheets[id]? <;> simp [targetOf?, modifySheet, hs, hf]

theorem targetOf?_writeOutlet_self (text : String) (o : Outlet) :
    (w.writeOutlet id text o).targetOf? id o = (w.targetOf? id o).map (·.write text) := by
  cases o with
  | attached t => simp [writeOutlet, writeTarget, targetOf?]
  | own => cases hs : w.sheets[id]? <;> simp [writeOutlet, targetOf?, modifySheet, hs]

theorem targetOf?_writeOutlet_ne {o' : Outlet} (h : o' ≠ o) (text : String) :
    (w.writeOutlet id text o').targetOf? id o = w.targetOf? id o := by
  cases o with
  | attached t => exact writeOutlet_targets h
  | own =>
    cases o' with
    | own => exact absurd rfl h
    | attached t => rfl

/-- The sheet has an outlet, and it is another one. -/
def Detached (id : Nat) (o : Outlet) (w : World) : Prop :=
  ∃ s o', w.sheets[id]? = some s ∧ s.delivery = .onTick ∧ s.outlet? = some o' ∧ o' ≠ o

/-- The step attaches the outlet to the sheet. -/
def Attaches (id : Nat) (o : Outlet) (w : World) : Step → Prop
  | .call handle (.setTarget target) => w.sheetOf? handle = some id ∧ o = .attached target
  | _ => False

theorem Detached.writeOutlet (h : Detached id o w) (text : String) (o' : Outlet) :
    Detached id o (w.writeOutlet id text o') := by
  obtain ⟨s, present, hs, hd, ho, hne⟩ := h
  exact ⟨_, present, writeOutlet_self hs, by simpa using hd, by simpa using ho, hne⟩

/-- The sheet stays away from an outlet that it is detached from. -/
def Spares (id : Nat) (o : Outlet) (w w' : World) : Prop :=
  Detached id o w' ∧ w'.targetOf? id o = w.targetOf? id o

theorem Spares.trans {w'' : World} (h : Spares id o w w') (h' : Spares id o w' w'') : Spares id o w w'' :=
  ⟨h'.1, h'.2.trans h.2⟩

theorem spares_modifySheet {o' : Outlet} {f : Sheet → Sheet} (hs : w.sheets[id]? = some s)
    (hd : (f s).delivery = .onTick) (ho : (f s).outlet? = some o') (hne : o' ≠ o)
    (hown : ∀ s, (f s).own = s.own) : Spares id o w (w.modifySheet id f) :=
  ⟨⟨f s, o', modifySheet_self hs, hd, ho, hne⟩, targetOf?_modifySheet f hown o⟩

theorem spares_writeOutlet {o' : Outlet} (h : Detached id o w) (hne : o' ≠ o) (text : String) :
    Spares id o w (w.writeOutlet id text o') :=
  ⟨h.writeOutlet text o', targetOf?_writeOutlet_ne hne text⟩

theorem spares_flush (h : Detached id o w) : Spares id o w (w.flush id) := by
  obtain ⟨s, o', hs, hd, ho, hne⟩ := h
  have hflushed : Spares id o w (w.modifySheet id (·.flushedTo o')) :=
    spares_modifySheet hs hd rfl hne fun _ => rfl
  rw [flush_of_some hs (nextOutlet?_of_some ho)]
  exact hflushed.trans (spares_writeOutlet hflushed.1 hne _)

theorem spares_runTask (h : Detached id o w) (ht : task.sheet = id) : Spares id o w (w.runTask task) := by
  unfold runTask
  split
  · rw [ht]
    exact spares_flush h
  · exact ⟨h, rfl⟩

theorem Detached.on {i : Nat} (h : Detached id o w) (hon : On i w w') (hi : i ≠ id) : Detached id o w' := by
  obtain ⟨s, o', hs, hrest⟩ := h
  exact ⟨s, o', by rw [hon.others id (Ne.symm hi), hs], hrest⟩

theorem detached_foldl (h : Detached id o w) (tasks : List FlushTask) : Detached id o (tasks.foldl runTask w) := by
  induction tasks generalizing w with
  | nil => exact h
  | cons t rest ih =>
    refine ih ?_
    by_cases ht : t.sheet = id
    · exact (spares_runTask h ht).1
    · exact h.on (on_runTask t) ht

/-- Attaching a target clears the earlier outlet once and writes the text to the target. -/
theorem setTarget_of_some {target : Nat} (hs : w.sheets[id]? = some s) (hd : s.delivery = .onTick)
    (ho : s.outlet? = some o) (hne : Outlet.attached target ≠ o) :
    Detached id o (w.setTarget id s target) ∧
      (w.setTarget id s target).targetOf? id o = (w.targetOf? id o).map (·.write "") ∧
      (w.setTarget id s target).targetOf? id (.attached target) =
        (w.targetOf? id (.attached target)).map (·.write s.css) := by
  have hattached : Spares id o w (w.modifySheet id fun s => s.issueToken.flushedTo (.attached target)) :=
    spares_modifySheet hs hd rfl hne fun _ => rfl
  have hsame : ∀ o', (w.modifySheet id fun s => s.issueToken.flushedTo (.attached target)).targetOf? id o' =
      w.targetOf? id o' := targetOf?_modifySheet _ fun _ => rfl
  simp only [setTarget, ho]
  refine ⟨(hattached.1.writeOutlet "" o).writeOutlet _ _, ?_, ?_⟩
  · rw [targetOf?_writeOutlet_ne hne, targetOf?_writeOutlet_self, hsame]
  · rw [targetOf?_writeOutlet_self, targetOf?_writeOutlet_ne hne.symm, hsame]

/-- An operation on the sheet that does not attach the outlet again. -/
theorem spares_perform (h : Detached id o w) (hs : w.sheets[id]? = some s) (c : Call)
    (hc : ∀ target, c = .setTarget target → o ≠ .attached target) : Spares id o w (w.perform id s c).2 := by
  obtain ⟨s₁, o', hs₁, hd, ho, hne⟩ := h
  obtain rfl : s = s₁ := Option.some.inj (hs.symm.trans hs₁)
  -- operations that cancel write to the outlet of the moment, and others write to none
  by_cases hcancels : c.Cancels
  · cases c with
    | style | cssRule | keyframes | fontFace | cssRaw | stylesheet => cases hcancels
    | forceRender =>
      have hissued : Spares id o w (w.modifySheet id Sheet.issueToken) :=
        spares_modifySheet hs hd ho hne fun _ => rfl
      exact hissued.trans (spares_flush hissued.1)
    | reinit =>
      have hfresh : Spares id o w (w.modifySheet id Sheet.reinit) := spares_modifySheet hs hd ho hne fun _ => rfl
      simp only [perform, reinit, ho]
      exact hfresh.trans (spares_writeOutlet hfresh.1 hne "")
    | setTarget target =>
      have hnew : Outlet.attached target ≠ o := (hc target rfl).symm
      have hattached : Spares id o w (w.modifySheet id fun s => s.issueToken.flushedTo (.attached target)) :=
        spares_modifySheet hs hd rfl hnew fun _ => rfl
      have hcleared := hattached.trans (spares_writeOutlet hattached.1 hne "")
      simp only [perform, setTarget, ho]
      exact hcleared.trans (spares_writeOutlet hcleared.1 hnew _)
  · obtain ⟨n, s', hdef⟩ := deferred_perform hs hd hcancels
    refine ⟨⟨s', o', hdef.sheet, hdef.delivery.trans hd, hdef.outlet.trans ho, hne⟩, ?_⟩
    cases o with
    | attached t => rw [targetOf?, hdef.targets, targetOf?]
    | own => rw [targetOf?, hdef.sheet, targetOf?, hs, Option.map_some, hdef.own, Option.map_some]

theorem spares_call {handle : Nat} {c : Call} (h : Detached id o w) (hh : w.sheetOf? handle = some id)
    (ha : ¬ Attaches id o w (.call handle c)) : Spares id o w (w.call handle c).2 := by
  have ⟨s, _, hs, _⟩ := h
  simp only [call, hh, hs]
  refine spares_perform h hs c ?_
  rintro target rfl he
  exact ha ⟨hh, he⟩

theorem detached_step (h : Detached id o w) {x : Step} (hx : ¬ Attaches id o w x) :
    Detached id o (w.step x).2 := by
  cases x with
  | write | clone | drop | detect | setEnvironment => exact h
  | tick =>
    show Detached id o w.tick.2
    rw [tick_eq]
    exact detached_foldl (w := { w with queue := [] }) h w.queue
  | call handle c =>
    by_cases hh : w.sheetOf? handle = some id
    · exact (spares_call h hh hx).1
    · obtain ⟨i, hid, hon⟩ := on_call_of_ne hh c
      exact h.on hon hid

theorem detached_run {steps : List Step} (h : Detached id o w)
    (hn : Along (fun u x => ¬ Attaches id o u x) w steps) : Detached id o (w.run steps).2 := by
  induction steps generalizing w with
  | nil => exact h
  | cons x rest ih => exact ih (detached_step h hn.1) hn.2

/-- Neither an operation on the sheet nor a task of it touches the target behind the outlet. -/
structure Silent (id : Nat) (o : Outlet) (w : World) : Prop where
  call : ∀ handle c, w.sheetOf? handle = some id → ¬ Attaches id o w (.call handle c) →
    (w.call handle c).2.targetOf? id o = w.targetOf? id o
  task : ∀ before task after, w.queue = before ++ task :: after → task.sheet = id →
    ((w.midTick before).runTask task).targetOf? id o = (w.midTick before).targetOf? id o

theorem Detached.silent (h : Detached id o w) : Silent id o w where
  call := fun _ _ hh ha => (spares_call h hh ha).2
  task := fun before _ _ _ ht =>
    (spares_runTask (detached_foldl (w := { w with queue := [] }) h before) ht).2

end World

end StyleEngine
