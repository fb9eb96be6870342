import StyleEngine.Proofs.Registry.Indexed
import StyleEngine.Proofs.Registry.Kept
import StyleEngine.Proofs.RuleTable.Soundness

/-!
# Tables that arise

The tables of a run are those that are compiled, those of the registry between registrations and those in the
middle of one, when some entries or faces are stored and others are not yet (`Reached`). All of them are sound, so
there is an entry wherever a key points to, and what is merged under a key never meets an entry of another kind. The
entries without a key are the font faces that were registered, in order (`rule_tables_represented`). A registration
always comes to a result (`exists_step`), as no position is beyond the entries.
-/

namespace StyleEngine

/-- Only frames that declare something are kept, sorted. -/
theorem Registry.compileFrames_filled {fs : List (String × Description)} {frames : List (String × List Declaration)}
    (h : compileFrames fs = .ok frames) : ∀ frame ∈ frames, frame.2 ≠ [] ∧ Declaration.Sorted frame.2 := by
  induction fs generalizing frames with
  | nil =>
    obtain rfl := Except.ok.inj h
    exact fun _ hm => absurd hm List.not_mem_nil
  | cons entry rest ih =>
    obtain ⟨offset, d⟩ := entry
    rw [compileFrames] at h
    split at h
    · cases h
    · next ds hds =>
      obtain ⟨later, hlater, rfl⟩ := ok_of_map_ok h
      split
      · exact ih hlater
      · next hne =>
        intro frame hm
        rcases List.mem_cons.mp hm with rfl | hm
        · exact ⟨Declaration.sort_ne_nil (by simpa using hne), Declaration.sorted_sort ds⟩
        · exact ih hlater frame hm

/-- The entry of a font face. -/
def Entry.face (declarations : List Declaration) : Entry :=
  .style ["@font-face"] (Declaration.sort declarations) true

/-- The entries of the font faces that a registration stores. -/
def Registration.faceEntries : Registration → List Entry
  | faces ds =>
    match Registry.compileFaces ds with
    | .ok own => (own.filter (!·.isEmpty)).map Entry.face
    | .error _ => []
  | style _ _ | rule _ _ | keyframes _ _ => []

namespace IndexedRegistry

open Registration (faceEntries)

variable {r : IndexedRegistry}

/-! ## One registration -/

/-- Entries that were compiled are sound. -/
theorem sound_compiled {sharing : Sharing} {nodes : List FlatNode} {compiled : RuleTable}
    (hc : RuleTable.ofNodes sharing nodes = some compiled) : ∀ entry ∈ compiled.entries, entry.Sound :=
  (RuleTable.sound_of_ofNodes hc).1.filled

theorem sound_addFaces {faces : List (List Declaration)} (hfaces : ∀ face ∈ faces, face ≠ []) (h : r.rules.Sound) :
    (faces.foldl addFace r).rules.Sound ∧
      (faces.foldl addFace r).rules.loose = r.rules.loose ++ faces.map Entry.face := by
  induction faces generalizing r with
  | nil => exact ⟨h, (List.append_nil _).symm⟩
  | cons face rest ih =>
    obtain ⟨hsound, hloose⟩ := h.pushUnkeyed "@font-face" (hfaces face List.mem_cons_self)
    obtain ⟨hlast, hrest⟩ := ih (r := r.addFace face) (fun f hf => hfaces f (List.mem_cons_of_mem _ hf)) hsound
    refine ⟨hlast, ?_⟩
    calc
      _ = (r.rules.loose ++ [Entry.face face]) ++ rest.map Entry.face := hrest.trans (congrArg (· ++ _) hloose)
      _ = r.rules.loose ++ (face :: rest).map Entry.face := List.append_assoc ..

/-- A registration comes to a result. The table that it leaves is sound and has its faces as new loose entries. -/
theorem exists_step (h : r.rules.Sound) (x : Registration) :
    ∃ r', r.step x = some r' ∧ r'.rules.Sound ∧ r'.rules.loose = r.rules.loose ++ x.faceEntries := by
  -- what is merged comes with its key
  have hmerged : ∀ {t' : RuleTable}, r.rules.Grows t' → t'.Sound ∧ t'.loose = r.rules.loose ++ [] := fun hgrows =>
    ⟨hgrows.sound, hgrows.loose.trans (List.append_nil _).symm⟩
  cases x with
  | style d debug =>
    rw [step, attempt_storeStyle]
    cases d.normalize debug with
    | error e => exact ⟨r, rfl, hmerged h.refl⟩
    | ok style =>
      obtain ⟨result, hresult, hgrows⟩ := h.mergeStyle (sound_compiled (RuleSet.ofNodes_table _ _)) (Registry.root style)
      refine ⟨r.update result, ?_, hmerged hgrows⟩
      dsimp only
      rw [Registry.compile, hresult]
      rfl
  | rule selector d =>
    rw [step, attempt_storeRule]
    cases d.normalize false with
    | error e => exact ⟨r, rfl, hmerged h.refl⟩
    | ok style =>
      obtain ⟨result, hresult, hgrows⟩ := h.mergeLiteral (sound_compiled (RuleSet.ofNodes_table _ _))
      refine ⟨r.update result, ?_, hmerged hgrows⟩
      dsimp only
      rw [hresult]
      rfl
  | faces ds =>
    rw [step, attempt_storeFaces, faceEntries]
    cases Registry.compileFaces ds with
    | error e => exact ⟨r, rfl, hmerged h.refl⟩
    | ok own => exact ⟨_, rfl, sound_addFaces (fun face hf => by simpa using (List.mem_filter.mp hf).2) h⟩
  | keyframes k debug =>
    rw [step, attempt_storeKeyframes]
    cases hc : Registry.compileFrames k.frames with
    | error e => exact ⟨r, rfl, hmerged h.refl⟩
    | ok frames =>
      cases frames with
      | nil => exact ⟨r, rfl, hmerged h.refl⟩
      | cons frame rest =>
        exact ⟨_, rfl, hmerged (h.insertKeyframes _ (List.cons_ne_nil _ _) (Registry.compileFrames_filled hc))⟩

/-! ## Runs -/

theorem exists_run (h : r.rules.Sound) (xs : List Registration) :
    ∃ r', r.run xs = some r' ∧ r'.rules.Sound ∧ r'.rules.loose = r.rules.loose ++ xs.flatMap faceEntries := by
  induction xs generalizing r with
  | nil => exact ⟨r, rfl, h, (List.append_nil _).symm⟩
  | cons x rest ih =>
    obtain ⟨r₁, hstep, hsound₁, hloose₁⟩ := exists_step h x
    obtain ⟨r₂, hrun, hsound₂, hloose₂⟩ := ih hsound₁
    refine ⟨r₂, ?_, hsound₂, ?_⟩
    · show (r.step x).bind (fun r' => r'.run rest) = _
      rw [hstep]
      exact hrun
    · rw [hloose₂, hloose₁, List.append_assoc, List.flatMap_cons]

/-- The tables that come up in a run, each with the faces that were stored before: compiled tables, which have none,
the table of the registry after a run, and this table when some entries of a style, some entries for literal
selectors or some faces are stored on top of it. -/
inductive Reached : List Entry → RuleTable → Prop
  | compiled {sharing : Sharing} {nodes : List FlatNode} {t : RuleTable}
      (h : RuleTable.ofNodes sharing nodes = some t) : Reached [] t
  | stored {xs : List Registration} {r : IndexedRegistry} (h : run {} xs = some r) :
      Reached (xs.flatMap faceEntries) r.rules
  | merging {xs : List Registration} {r : IndexedRegistry} {root : String} {nodes : List FlatNode}
      {compiled t : RuleTable} {done rest : List Entry} {changed : Bool} (hr : run {} xs = some r)
      (hc : RuleTable.ofNodes .byDeclarations nodes = some compiled) (hsplit : compiled.entries = done ++ rest)
      (h : RuleTable.mergeAll (RuleTable.mergeStyleEntry root) r.rules done = some (t, changed)) :
      Reached (xs.flatMap faceEntries) t
  | mergingLiteral {xs : List Registration} {r : IndexedRegistry} {nodes : List FlatNode}
      {compiled t : RuleTable} {done rest : List Entry} {changed : Bool} (hr : run {} xs = some r)
      (hc : RuleTable.ofNodes .bySelector nodes = some compiled) (hsplit : compiled.entries = done ++ rest)
      (h : RuleTable.mergeAll RuleTable.mergeLiteralEntry r.rules done = some (t, changed)) :
      Reached (xs.flatMap faceEntries) t
  | storing {xs : List Registration} {r : IndexedRegistry} {ds : List Description}
      {faces done rest : List (List Declaration)} (hr : run {} xs = some r) (hc : Registry.compileFaces ds = .ok faces)
      (hsplit : faces.filter (!·.isEmpty) = done ++ rest) :
      Reached (xs.flatMap faceEntries ++ done.map Entry.face) (done.foldl addFace r).rules

theorem sound_run {xs : List Registration} (h : run {} xs = some r) :
    r.rules.Sound ∧ r.rules.loose = xs.flatMap faceEntries := by
  obtain ⟨r', hr', hsound, hloose⟩ := exists_run (r := {}) .empty xs
  obtain rfl : r = r' := Option.some.inj (h.symm.trans hr')
  exact ⟨hsound, hloose⟩

theorem Reached.sound {faces : List Entry} {t : RuleTable} (h : Reached faces t) : t.Sound ∧ t.loose = faces := by
  cases h with
  | compiled ht => exact RuleTable.sound_of_ofNodes ht
  | stored hr => exact sound_run hr
  | @merging _ _ root _ _ _ _ _ _ hr hc hsplit ht =>
    obtain ⟨hsound, hloose⟩ := sound_run hr
    obtain ⟨result, hresult, hgrows⟩ := RuleTable.Sound.mergeAll
      (fun h he => h.mergeStyleEntry root he) hsound
      fun entry he => sound_compiled hc entry (hsplit ▸ List.mem_append_left _ he)
    obtain rfl := Option.some.inj (ht.symm.trans hresult)
    exact ⟨hgrows.sound, hgrows.loose.trans hloose⟩
  | mergingLiteral hr hc hsplit ht =>
    obtain ⟨hsound, hloose⟩ := sound_run hr
    obtain ⟨result, hresult, hgrows⟩ := RuleTable.Sound.mergeAll
      RuleTable.Sound.mergeLiteralEntry hsound
      fun entry he => sound_compiled hc entry (hsplit ▸ List.mem_append_left _ he)
    obtain rfl := Option.some.inj (ht.symm.trans hresult)
    exact ⟨hgrows.sound, hgrows.loose.trans hloose⟩
  | @storing _ r _ _ done rest hr _ hsplit =>
    obtain ⟨hsound, hloose⟩ := sound_run hr
    have hfaces : ∀ face ∈ done, face ≠ [] := by
      intro face hf
      have hkept := (List.mem_filter.mp (hsplit ▸ List.mem_append_left rest hf)).2
      simpa using hkept
    obtain ⟨hlast, hmore⟩ := sound_addFaces hfaces hsound
    exact ⟨hlast, hmore.trans (congrArg (· ++ _) hloose)⟩

/-- In every table that is reached the index points to different positions of entries, each of the kind that its
text begins with, all entries are filled, and those without a key are the faces. So a key under which something is
merged points to a style entry, and compiling and registering never go beyond the entries. -/
theorem rule_tables_represented :
    (∀ faces t, Reached faces t → t.Sound ∧ t.loose = faces ∧
      ∀ (key : RuleKey) (i : Nat), key.Merges → t.position? key = some i →
        ∃ selectors declarations unique, t.entries[i]? = some (.style selectors declarations unique)) ∧
    (∀ sharing nodes, ∃ t, RuleTable.ofNodes sharing nodes = some t) ∧
    ∀ xs, ∃ r, run {} xs = some r := by
  refine ⟨fun faces t h => ?_, fun sharing nodes => ?_, fun xs => ?_⟩
  · obtain ⟨hsound, hloose⟩ := h.sound
    exact ⟨hsound, hloose, fun key i hk hi => hsound.inStep.style_of_merges hk hi⟩
  · obtain ⟨t, ht, -⟩ := RuleTable.exists_ofNodes sharing nodes
    exact ⟨t, ht⟩
  · obtain ⟨r, hr, -⟩ := exists_run (r := {}) .empty xs
    exact ⟨r, hr⟩

/-- A literal rule, two styles that share a block, and a font face. -/
theorem rule_tables_represented_redRun :
    ∃ r, run {} (Registry.redRun ++ [.faces [Registry.red]]) = some r ∧ r.rules.Sound ∧
      r.rules.loose = [.style ["@font-face"] [⟨"color", "red"⟩] true] := by
  obtain ⟨hreached, -, hruns⟩ := rule_tables_represented
  obtain ⟨r, hr⟩ := hruns (Registry.redRun ++ [.faces [Registry.red]])
  obtain ⟨hsound, hloose, -⟩ := hreached _ _ (.stored hr)
  exact ⟨r, hr, hsound, hloose.trans rfl⟩

end IndexedRegistry

end StyleEngine
