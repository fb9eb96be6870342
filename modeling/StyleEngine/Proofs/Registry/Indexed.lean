import StyleEngine.IndexedRegistry
import StyleEngine.Proofs.Registry.Run
import StyleEngine.Proofs.RuleTable.Refinement

/-!
# Registries over the table of a rule set

A registry of rules has its table (`Registry.indexed`). What is registered over the table comes to a result, gives
the answer that the registry of rules gives, and leaves the table of what that one leaves
(`indexed_storeStyle` and the others). So a run over tables is a run of rule sets (`run_indexed`), and what is
proved of those holds of what is stored.

What a registration does to a table, whatever table it is, is said by one equation each
(`attempt_storeStyle` and the others).
-/

namespace StyleEngine

namespace IndexedRegistry

open Registry (className root compile literalNodes compileFaces compileFrames framesName)

variable {α β : Type}

/-- The registry after a change of its rules. A change counts once. -/
def update (r : IndexedRegistry) : RuleTable × Bool → IndexedRegistry
  | (rules, changed) => { rules, version := if changed then r.version + 1 else r.version }

/-- The registry after a face was stored. -/
def addFace (r : IndexedRegistry) (face : List Declaration) : IndexedRegistry :=
  { rules := r.rules.pushUnkeyed "@font-face" face, version := r.version + 1 }

/-- The registry after a registration, also after one that failed. -/
def step (r : IndexedRegistry) : Registration → Option IndexedRegistry
  | .style d debug => (r.attempt (storeStyle d debug)).map Prod.snd
  | .rule selector d => (r.attempt (storeRule selector d)).map Prod.snd
  | .faces ds => (r.attempt (storeFaces ds)).map Prod.snd
  | .keyframes k debug => (r.attempt (storeKeyframes k debug)).map Prod.snd

def run (r : IndexedRegistry) (xs : List Registration) : Option IndexedRegistry := xs.foldlM step r

/-! ## What a registration does -/

section Work

variable {next : α → Work β}

/-- What comes next starts with the registry that was left, unless there is no answer or no result. -/
theorem attempt_bind (r : IndexedRegistry) (work : Work α) :
    r.attempt (work >>= next) = (r.attempt work).bind fun
      | (.ok a, r') => r'.attempt (next a)
      | (.error e, r') => some (.error e, r') := by
  simp only [attempt, ExceptT.run_bind, StateT.run_bind]
  rcases StateT.run (ExceptT.run work) r with _ | ⟨_ | _, _⟩ <;> rfl

theorem attempt_ok (r : IndexedRegistry) (a : α) :
    r.attempt (liftM (Except.ok a : Except StyleError α) >>= next) = r.attempt (next a) := rfl

theorem attempt_option (r : IndexedRegistry) (result : Option α) :
    r.attempt (liftM result >>= next) = result.bind fun a => r.attempt (next a) := by
  cases result <;> rfl

theorem attempt_alter (r : IndexedRegistry) (change : RuleTable → Option (RuleTable × Bool)) :
    r.attempt (alter change) = (change r.rules).map fun result => (.ok (), r.update result) := by
  have hopen : r.attempt (alter change) = r.attempt (do
      let (rules, changed) ← liftM (change r.rules)
      modify fun r => { r with rules }
      if changed then modify bump) := rfl
  rw [hopen, attempt_option]
  rcases change r.rules with _ | ⟨rules, _ | _⟩ <;> rfl

/-- A change, and then an answer. -/
theorem attempt_alter_pure (r : IndexedRegistry) (change : RuleTable → Option (RuleTable × Bool)) (a : α) :
    r.attempt (alter change >>= fun _ => pure a) = (change r.rules).map fun result => (.ok a, r.update result) := by
  rw [attempt_bind, attempt_alter]
  cases change r.rules <;> rfl

/-- Each face is stored on its own. -/
theorem attempt_forIn (faces : List (List Declaration)) (r : IndexedRegistry) :
    r.attempt (forIn faces PUnit.unit fun face _ => do
      modify fun r => { r with rules := r.rules.pushUnkeyed "@font-face" face }
      modify bump
      pure (ForInStep.yield PUnit.unit)) = some (.ok PUnit.unit, faces.foldl addFace r) := by
  induction faces generalizing r with
  | nil => rfl
  | cons face rest ih =>
    rw [List.forIn_cons]
    exact ih (r.addFace face)

end Work

theorem attempt_storeStyle (r : IndexedRegistry) (d : Description) (debug : Bool) :
    r.attempt (storeStyle d debug) =
      match d.normalize debug with
      | .error e => some (.error e, r)
      | .ok style => (r.rules.mergeStyle (compile style (className style)).table (root style)).map fun result =>
          (.ok (className style), r.update result) := by
  rw [storeStyle]
  cases d.normalize debug with
  | error e => rfl
  | ok style =>
    rw [attempt_ok, attempt_option, RuleSet.ofNodes_table, Option.bind_some]
    dsimp only
    rw [attempt_option, RuleSet.ofNodes_table, Option.bind_some, RuleSet.css_table]
    exact attempt_alter_pure r _ _

theorem attempt_storeRule (r : IndexedRegistry) (selector : String) (d : Description) :
    r.attempt (storeRule selector d) =
      match d.normalize false with
      | .error e => some (.error e, r)
      | .ok style =>
        (r.rules.mergeLiteral (RuleSet.ofNodes .bySelector (literalNodes selector style)).table).map fun result =>
          (.ok (), r.update result) := by
  rw [storeRule]
  cases d.normalize false with
  | error e => rfl
  | ok style =>
    rw [attempt_ok, attempt_option, RuleSet.ofNodes_table, Option.bind_some]
    exact attempt_alter r _

theorem attempt_storeFaces (r : IndexedRegistry) (ds : List Description) :
    r.attempt (storeFaces ds) =
      match compileFaces ds with
      | .error e => some (.error e, r)
      | .ok faces => some (.ok (), (faces.filter (!·.isEmpty)).foldl addFace r) := by
  rw [storeFaces]
  cases compileFaces ds with
  | error e => rfl
  | ok faces =>
    rw [attempt_ok]
    refine (attempt_bind ..).trans ?_
    rw [attempt_forIn]
    rfl

theorem attempt_storeKeyframes (r : IndexedRegistry) (k : Keyframes) (debug : Bool) :
    r.attempt (storeKeyframes k debug) =
      match compileFrames k.frames with
      | .error e => some (.error e, r)
      | .ok frames => some (.ok (framesName k debug frames),
          if frames.isEmpty then r else r.update (r.rules.insertKeyframes (framesName k debug frames) frames)) := by
  rw [storeKeyframes]
  cases compileFrames k.frames with
  | error e => rfl
  | ok frames =>
    rw [attempt_ok]
    dsimp only
    cases frames with
    | nil => rfl
    | cons frame rest => exact attempt_alter_pure r _ _

end IndexedRegistry

/-! ## The table of a registry -/

namespace Registry

variable {α : Type}

/-- The registry over the table of the rules. -/
def indexed (r : Registry) : IndexedRegistry := ⟨r.rules.table, r.version⟩

theorem css_indexed (r : Registry) : r.indexed.css = r.css := RuleSet.css_table r.rules

theorem size_indexed (r : Registry) : r.indexed.size = r.size := RuleSet.length_table r.rules

theorem indexed_addFaces (faces : List (List Declaration)) (r : Registry) :
    faces.foldl IndexedRegistry.addFace r.indexed = (faces.foldl addFace r).indexed := by
  induction faces generalizing r with
  | nil => rfl
  | cons face rest ih =>
    have hface : r.indexed.addFace face = (r.addFace face).indexed :=
      congrArg (IndexedRegistry.mk · (r.version + 1))
        (RuleSet.table_append r.rules (.style ["@font-face"] (Declaration.sort face) true)).symm
    rw [List.foldl_cons, hface, ih]
    rfl

/-! ## Registrations over the table -/

theorem indexed_storeStyle (r : Registry) (d : Description) (debug : Bool) :
    r.indexed.attempt (IndexedRegistry.storeStyle d debug) =
      some ((r.attempt (storeStyle d debug)).1, (r.attempt (storeStyle d debug)).2.indexed) := by
  rw [IndexedRegistry.attempt_storeStyle, storeStyle]
  cases d.normalize debug with
  | error e => rfl
  | ok style => exact congrArg (Option.map _) (RuleSet.mergeStyle_table r.rules _ _)

theorem indexed_storeRule (r : Registry) (selector : String) (d : Description) :
    r.indexed.attempt (IndexedRegistry.storeRule selector d) =
      some ((r.attempt (storeRule selector d)).1, (r.attempt (storeRule selector d)).2.indexed) := by
  rw [IndexedRegistry.attempt_storeRule, storeRule]
  cases d.normalize false with
  | error e => rfl
  | ok style => exact congrArg (Option.map _) (RuleSet.mergeLiteral_table r.rules _)

theorem indexed_storeFaces (r : Registry) (ds : List Description) :
    r.indexed.attempt (IndexedRegistry.storeFaces ds) =
      some ((r.attempt (storeFaces ds)).1, (r.attempt (storeFaces ds)).2.indexed) := by
  rw [IndexedRegistry.attempt_storeFaces]
  cases hc : compileFaces ds with
  | error e => rw [storeFaces, hc]; rfl
  | ok faces =>
    dsimp only
    rw [attempt_storeFaces hc, indexed_addFaces]

theorem indexed_storeKeyframes (r : Registry) (k : Keyframes) (debug : Bool) :
    r.indexed.attempt (IndexedRegistry.storeKeyframes k debug) =
      some ((r.attempt (storeKeyframes k debug)).1, (r.attempt (storeKeyframes k debug)).2.indexed) := by
  rw [IndexedRegistry.attempt_storeKeyframes, storeKeyframes]
  cases compileFrames k.frames with
  | error e => rfl
  | ok frames =>
    cases frames with
    | nil => rfl
    | cons frame rest =>
      exact congrArg (fun x => some (Except.ok (framesName k debug (frame :: rest)), r.indexed.update x))
        (RuleSet.insertKeyframes_table r.rules _ _)

/-- Work that fails leaves the registry that it started with, so what is left is the registry after the step. -/
theorem left_indexed {r : Registry} {work : Work α} {stored : IndexedRegistry.Work α} (hatomic : work.Atomic)
    (h : r.indexed.attempt stored = some ((r.attempt work).1, (r.attempt work).2.indexed)) :
    (r.indexed.attempt stored).map Prod.snd = some (match (answered (r.attempt work)).map Prod.snd with
      | .ok r' => r'
      | .error _ => r).indexed := by
  rw [h]
  rcases hwork : r.attempt work with ⟨e | a, r'⟩
  · obtain rfl := hatomic r r' e hwork
    rfl
  · rfl

theorem indexed_step (r : Registry) (x : Registration) : r.indexed.step x = some (r.step x).indexed := by
  cases x with
  | style d debug => exact left_indexed (atomic_storeStyle d debug) (indexed_storeStyle r d debug)
  | rule selector d => exact left_indexed (atomic_storeRule selector d) (indexed_storeRule r selector d)
  | faces ds => exact left_indexed (atomic_storeFaces ds) (indexed_storeFaces r ds)
  | keyframes k debug => exact left_indexed (atomic_storeKeyframes k debug) (indexed_storeKeyframes r k debug)

/-- A run over tables is the run of rule sets. -/
theorem run_indexed (xs : List Registration) (r : Registry) : r.indexed.run xs = some (r.run xs).indexed := by
  induction xs generalizing r with
  | nil => rfl
  | cons x rest ih =>
    show (r.indexed.step x).bind (fun r' => r'.run rest) = _
    rw [indexed_step, Option.bind_some, ih]
    rfl

end Registry

end StyleEngine
