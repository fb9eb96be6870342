import StyleEngine.Proofs.Style.Texts
import StyleEngine.Registry

/-!
# Registrations that fail

A registration compiles what it is given and then stores it. Compiling may fail and only reads the registry
(`Work.Reads`), storing changes it and always comes to an answer (`Work.Answers`). In this order a
registration that fails has changed nothing (`Work.Reads.atomic_bind`).

What a registration comes to is said by one equation each (`registerStyle_eq` and the others), so nothing else
opens the work itself.
-/

namespace StyleEngine.Registry

variable {α β : Type}

namespace Work

/-- The registry stays as it is, also when there is an answer. -/
def Reads (work : Work α) : Prop := ∀ r, (attempt r work).2 = r

/-- The work never fails. -/
def Answers (work : Work α) : Prop := ∀ r, ∃ a r', attempt r work = (.ok a, r')

/-- Work that fails leaves the registry as it was. -/
def Atomic (work : Work α) : Prop := ∀ r r' e, attempt r work = (.error e, r') → r' = r

variable {work : Work α} {next : α → Work β}

/-- What comes next starts with the registry that was left, unless there is no answer. -/
theorem attempt_bind (r : Registry) (work : Work α) (next : α → Work β) :
    attempt r (work >>= next) =
      match attempt r work with
      | (.ok a, r') => attempt r' (next a)
      | (.error e, r') => (.error e, r') := by
  simp only [attempt, ExceptT.run_bind, StateT.run_bind]
  rcases StateT.run (ExceptT.run work) r with ⟨_ | _, _⟩ <;> rfl

theorem attempt_map (r : Registry) (work : Work α) (f : α → β) :
    attempt r (f <$> work) = ((attempt r work).1.map f, (attempt r work).2) := by
  simp only [attempt, ExceptT.run_map, StateT.run_map]
  rcases StateT.run (ExceptT.run work) r with ⟨_ | _, _⟩ <;> rfl

theorem reads_compiled (result : Except StyleError α) : Reads (liftM result : Work α) := fun _ => rfl

theorem answers_pure (a : α) : Answers (pure a : Work α) := fun r => ⟨a, r, rfl⟩

theorem answers_modify (f : Registry → Registry) : Answers (modify f : Work PUnit) := fun r => ⟨⟨⟩, f r, rfl⟩

theorem Answers.bind (h : Answers work) (hnext : ∀ a, Answers (next a)) : Answers (work >>= next) := by
  intro r
  obtain ⟨a, r', ha⟩ := h r
  rw [attempt_bind, ha]
  exact hnext a r'

/-- One change for each element of a list. -/
theorem attempt_forIn (f : α → Registry → Registry) (xs : List α) (r : Registry) :
    attempt r (forIn xs PUnit.unit fun x _ => do modify (f x); pure (ForInStep.yield PUnit.unit)) =
      (.ok PUnit.unit, xs.foldl (fun r x => f x r) r) := by
  induction xs generalizing r with
  | nil => rfl
  | cons x rest ih =>
    rw [List.forIn_cons, attempt_bind]
    exact ih (f x r)

theorem answers_forIn (f : α → Registry → Registry) (xs : List α) :
    Answers (forIn xs PUnit.unit fun x _ => do modify (f x); pure (ForInStep.yield PUnit.unit)) :=
  fun r => ⟨_, _, attempt_forIn f xs r⟩

/-- What can fail comes before what changes. -/
theorem Reads.atomic_bind (h : Reads work) (hnext : ∀ a, Answers (next a)) : Atomic (work >>= next) := by
  intro r r' e he
  rw [attempt_bind] at he
  have hsame := h r
  rcases hwork : attempt r work with ⟨e' | a, r₁⟩
  · rw [hwork] at he hsame
    rw [← (Prod.mk.inj he).2]
    exact hsame
  · rw [hwork] at he
    obtain ⟨b, r₂, hb⟩ := hnext a r₁
    cases hb.symm.trans he

theorem Atomic.map (h : Atomic work) (f : α → β) : Atomic (f <$> work) := by
  intro r r' e he
  rw [attempt_map] at he
  obtain ⟨hanswer, rfl⟩ := Prod.mk.inj he
  rcases hwork : attempt r work with ⟨e' | a, r₁⟩
  · exact h r r₁ e' hwork
  · rw [hwork] at hanswer
    cases hanswer

end Work

/-! ## The four registrations -/

theorem atomic_storeStyle (d : Description) (debug : Bool) : (storeStyle d debug).Atomic :=
  (Work.reads_compiled _).atomic_bind fun _ => (Work.answers_modify _).bind fun _ => Work.answers_pure _

theorem atomic_storeRule (selector : String) (d : Description) : (storeRule selector d).Atomic :=
  (Work.reads_compiled _).atomic_bind fun _ => Work.answers_modify _

theorem atomic_storeFaces (ds : List Description) : (storeFaces ds).Atomic :=
  (Work.reads_compiled _).atomic_bind fun _ =>
    (Work.answers_forIn (fun face r => r.addFace face) _).bind fun _ => Work.answers_pure _

theorem atomic_storeKeyframes (k : Keyframes) (debug : Bool) : (storeKeyframes k debug).Atomic := by
  refine (Work.reads_compiled _).atomic_bind fun frames => ?_
  dsimp only
  split
  · exact Work.answers_pure _
  · exact (Work.answers_modify _).bind fun _ => Work.answers_pure _

/-- An answer is passed on with its registry. -/
theorem answered_attempt_map (r : Registry) (work : Work α) (f : α → β) :
    answered (r.attempt (f <$> work)) = (answered (r.attempt work)).map fun (a, r') => (f a, r') := by
  rw [Work.attempt_map]
  rcases r.attempt work with ⟨_ | _, _⟩ <;> rfl

theorem answered_attempt_done (r : Registry) (work : Work Unit) (b : β) :
    answered (r.attempt ((fun () => b) <$> work)) = ((answered (r.attempt work)).map Prod.snd).map (b, ·) := by
  rw [Work.attempt_map]
  rcases r.attempt work with ⟨_ | _, _⟩ <;> rfl

theorem registerStyle_eq (r : Registry) (d : Description) (debug : Bool) :
    r.registerStyle d debug = (d.normalize debug).map fun style =>
      let name := className style
      (name, r.update (r.rules.mergeStyle (compile style name) (Selector.ofClass name))) := by
  rw [registerStyle, storeStyle]
  cases d.normalize debug <;> rfl

/-- A class is returned when the description has a normal style, whose class it is. -/
theorem exists_style_of_registerStyle {r r' : Registry} {d : Description} {debug : Bool} {name : String}
    (h : r.registerStyle d debug = .ok (name, r')) :
    ∃ style, d.normalize debug = .ok style ∧ name = className style ∧
      r' = r.update (r.rules.mergeStyle (compile style name) (Selector.ofClass name)) := by
  rw [registerStyle_eq] at h
  obtain ⟨style, hstyle, he⟩ := ok_of_map_ok h
  obtain ⟨rfl, rfl⟩ := Prod.mk.inj he
  exact ⟨style, hstyle, rfl, rfl⟩

theorem registerRule_eq (r : Registry) (selector : String) (d : Description) :
    r.registerRule selector d = (d.normalize false).map fun style =>
      r.update (r.rules.mergeLiteral (RuleSet.ofNodes .bySelector (literalNodes selector style))) := by
  rw [registerRule, storeRule]
  cases d.normalize false <;> rfl

theorem attempt_storeFaces {ds : List Description} {faces : List (List Declaration)} (hc : compileFaces ds = .ok faces)
    (r : Registry) : r.attempt (storeFaces ds) = (.ok (), (faces.filter (!·.isEmpty)).foldl addFace r) := by
  rw [storeFaces, hc]
  refine (Work.attempt_bind ..).trans ((Work.attempt_bind ..).trans ?_)
  rw [Work.attempt_forIn fun face r => r.addFace face]
  rfl

theorem registerFaces_eq (r : Registry) (ds : List Description) :
    r.registerFaces ds = (compileFaces ds).map fun faces => (faces.filter (!·.isEmpty)).foldl addFace r := by
  cases hc : compileFaces ds with
  | error e => rw [registerFaces, storeFaces, hc]; rfl
  | ok faces =>
    rw [registerFaces, attempt_storeFaces hc]
    rfl

theorem registerKeyframes_eq (r : Registry) (k : Keyframes) (debug : Bool) :
    r.registerKeyframes k debug = (compileFrames k.frames).map fun frames =>
      let name := framesName k debug frames
      (name, if frames.isEmpty then r else r.update (r.rules.insertKeyframes name frames)) := by
  rw [registerKeyframes, storeKeyframes]
  cases compileFrames k.frames with
  | error e => rfl
  | ok frames => cases frames <;> rfl

/-- A name is returned when all frames compile, and is the name of the frames that declare something. -/
theorem exists_frames_of_registerKeyframes {r r' : Registry} {k : Keyframes} {debug : Bool} {name : String}
    (h : r.registerKeyframes k debug = .ok (name, r')) :
    ∃ frames, compileFrames k.frames = .ok frames ∧ name = framesName k debug frames ∧
      r' = if frames.isEmpty then r else r.update (r.rules.insertKeyframes name frames) := by
  rw [registerKeyframes_eq] at h
  obtain ⟨frames, hframes, he⟩ := ok_of_map_ok h
  obtain ⟨rfl, rfl⟩ := Prod.mk.inj he
  exact ⟨frames, hframes, rfl, rfl⟩

end StyleEngine.Registry
