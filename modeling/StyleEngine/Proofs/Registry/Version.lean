import StyleEngine.Proofs.Registry.Addressing
import StyleEngine.Proofs.Registry.Change
import StyleEngine.Proofs.Registry.Literal
import StyleEngine.Proofs.RuleSet.Growth

/-!
# The version counts the changes

The version of a registry stands still exactly when its rules do (`version_step_iff`). Styles, rules and
keyframes count once, however many of their rules change something; font faces count each face that
declares something (`countP_declares`).
-/

namespace StyleEngine

namespace Registration

open Registry

/-- A registration brings each literal selector once. -/
theorem literalsOnce_slots (x : Registration) : RuleSet.LiteralsOnce x.slots := by
  cases x with
  | rule selector d =>
    rw [slots, compiled]
    cases d.normalize false with
    | error e => exact .nil
    | ok normal =>
      show RuleSet.LiteralsOnce (RuleSet.rekey RuleKey.ofLiteral (RuleSet.ofNodes .bySelector _))
      rw [RuleSet.rekey_ofNodes]
      exact RuleSet.literalsOnce_of_nodup (RuleSet.keyTexts_nodup_ofNodes _)
  | style | faces | keyframes =>
    refine RuleSet.literalsOnce_of_none fun slot hs => ne_literal_of_mem_slots ?_ hs
    exact fun _ _ he => by cases he

end Registration

namespace Registry

/-- Whether a description is valid and declares something itself. -/
def declares (d : Description) : Bool :=
  match d.normalize false with
  | .ok style => !style.declarations.isEmpty
  | .error _ => false

/-- The faces that are stored are those that declare something. -/
theorem countP_declares {ds : List Description} {faces : List (List Declaration)}
    (h : compileFaces ds = .ok faces) : (faces.filter (!·.isEmpty)).length = ds.countP declares := by
  induction ds generalizing faces with
  | nil =>
    obtain rfl := Except.ok.inj h
    rfl
  | cons d rest ih =>
    rw [compileFaces] at h
    cases hd : d.normalize false with
    | error e => simp [flatDeclarations, hd] at h
    | ok style =>
      rw [flatDeclarations, hd] at h
      cases hn : style.nested with
      | cons entry more => simp [hn] at h
      | nil =>
        simp only [hn] at h
        obtain ⟨later, hlater, rfl⟩ := ok_of_map_ok h
        have hone : declares d = !style.declarations.isEmpty := by rw [declares, hd]
        rw [List.filter_cons, List.countP_cons, ← ih hlater, hone]
        split <;> simp_all

/-- Everything but faces is one merge. -/
theorem step_eq_update {x : Registration} (hx : ∀ ds, x ≠ .faces ds) (r : Registry) :
    r.step x = r.update (RuleSet.depositAll r.rules x.slots) := by
  cases x with
  | faces ds => exact absurd rfl (hx ds)
  | style d debug =>
    cases hd : d.normalize debug with
    | ok style => exact step_style hd r
    | error e =>
      rw [step, apply, registerStyle_eq, Registration.slots, hd]
      rfl
  | rule selector d =>
    rw [step, apply, registerRule_eq, Registration.slots, Registration.compiled]
    cases d.normalize false with
    | error e => rfl
    | ok style => simp only [Except.map, RuleSet.mergeLiteral_eq_depositAll]
  | keyframes k debug =>
    rw [step, apply, registerKeyframes_eq, Registration.slots, Registration.compiled]
    cases compileFrames k.frames with
    | error e => rfl
    | ok frames =>
      cases frames with
      | nil => rfl
      | cons frame rest =>
        show r.update (RuleSet.insertKeyframes _ _ _) = r.update (RuleSet.depositAll _ [_])
        rw [RuleSet.depositAll_singleton]
        rfl

theorem version_foldl_addFace (faces : List (List Declaration)) (r : Registry) :
    (faces.foldl addFace r).version = r.version + faces.length := by
  induction faces generalizing r with
  | nil => rfl
  | cons ds rest ih =>
    rw [List.foldl_cons, ih, List.length_cons]
    show r.version + 1 + rest.length = _
    omega

theorem version_registerFaces {r r' : Registry} {ds : List Description} (h : r.registerFaces ds = .ok r') :
    r'.version = r.version + ds.countP declares := by
  rw [registerFaces_eq] at h
  obtain ⟨faces, hfaces, rfl⟩ := ok_of_map_ok h
  rw [version_foldl_addFace, countP_declares hfaces]

/-- The version stands still exactly when the merge of the slots raises no flag. -/
theorem version_step_eq_iff (r : Registry) (x : Registration) :
    (r.step x).version = r.version ↔ (RuleSet.depositAll r.rules x.slots).2 = false := by
  by_cases hx : ∀ ds, x ≠ .faces ds
  · rw [step_eq_update hx, update]
    cases (RuleSet.depositAll r.rules x.slots).2 <;> simp
  · obtain ⟨ds, rfl⟩ : ∃ ds, x = .faces ds := by simpa using hx
    rw [step, apply, registerFaces_eq, Registration.slots, Registration.compiled]
    cases compileFaces ds with
    | error e => exact ⟨fun _ => rfl, fun _ => rfl⟩
    | ok faces =>
      show ((faces.filter (!·.isEmpty)).foldl addFace r).version = r.version ↔
        (RuleSet.depositAll r.rules ((faces.filter (!·.isEmpty)).map _)).2 = false
      rw [version_foldl_addFace]
      cases faces.filter (!·.isEmpty) with
      | nil => exact ⟨fun _ => rfl, fun _ => rfl⟩
      | cons face rest => simp [RuleSet.depositAll, RuleSet.deposit]

/-- The version stands still exactly when the stored rules do. -/
theorem version_step_iff (r : Registry) (x : Registration) :
    (r.step x).version = r.version ↔ (r.step x).rules.map Prod.snd = r.rules.map Prod.snd := by
  rw [version_step_eq_iff, RuleSet.depositAll_flag_iff x.literalsOnce_slots, rules_step]
  exact ⟨congrArg _, (RuleSet.extends_depositAll r.rules x.slots).eq_of_rules⟩

theorem version_step_le {x : Registration} (hx : ∀ ds, x ≠ .faces ds) (r : Registry) :
    r.version ≤ (r.step x).version ∧ (r.step x).version ≤ r.version + 1 := by
  rw [step_eq_update hx, update]
  cases (RuleSet.depositAll r.rules x.slots).2 <;> simp

theorem step_faces (r : Registry) (ds : List Description) :
    (∃ e, r.registerFaces ds = .error e ∧ r.step (.faces ds) = r) ∨
      r.registerFaces ds = .ok (r.step (.faces ds)) := by
  rw [step, apply]
  cases r.registerFaces ds with
  | error e => exact .inl ⟨e, rfl, rfl⟩
  | ok r' => exact .inr rfl

theorem version_le_step (r : Registry) (x : Registration) : r.version ≤ (r.step x).version := by
  cases x with
  | faces ds =>
    rcases step_faces r ds with ⟨e, -, he⟩ | h
    · exact Nat.le_of_eq (congrArg version he).symm
    · rw [version_registerFaces h]
      exact Nat.le_add_right ..
  | style | rule | keyframes =>
    refine (version_step_le ?_ r).1
    exact fun _ he => nomatch he

/-- No registration, successful or not, takes the version down, and it stands still exactly when the
stored rules do; so whenever the text changes the version goes up. Font faces add the number of faces
that declare something or fail and add nothing, any other registration adds one at most. -/
theorem version_counts_changes (xs : List Registration) (x : Registration) :
    let r := run {} xs
    let r' := r.step x
    r.version ≤ r'.version ∧
    (r'.version = r.version ↔ r'.rules.map Prod.snd = r.rules.map Prod.snd) ∧
    (r'.css ≠ r.css → r.version < r'.version) ∧
    match x with
    | .faces ds =>
      (∃ e, r.registerFaces ds = .error e ∧ r' = r) ∨
        (r.registerFaces ds = .ok r' ∧ r'.version = r.version + ds.countP declares)
    | _ => r'.version ≤ r.version + 1 := by
  intro r r'
  refine ⟨version_le_step r x, version_step_iff r x, fun hcss => ?_, ?_⟩
  · refine Nat.lt_of_le_of_ne (version_le_step r x) fun he => hcss ?_
    have hrules := (RuleSet.extends_depositAll r.rules x.slots).eq_of_rules
      (rules_step r x ▸ (version_step_iff r x).mp he.symm)
    rw [css, rules_step, hrules]
    rfl
  · cases x with
    | faces ds => exact (step_faces r ds).imp_right fun h => ⟨h, version_registerFaces h⟩
    | style | rule | keyframes =>
      refine (version_step_le ?_ r).2
      exact fun _ he => nomatch he

/-- A literal rule is stored; of two faces that come one declares nothing. -/
theorem version_counts_changes_redFaces :
    ((run {} [.rule "body" red]).step (.faces [red, {}])).css ≠ (run {} [.rule "body" red]).css ∧
    (run {} [.rule "body" red]).version < ((run {} [.rule "body" red]).step (.faces [red, {}])).version ∧
    ((run {} [.rule "body" red]).step (.faces [red, {}])).version = (run {} [.rule "body" red]).version + 1 := by
  obtain ⟨-, -, hcss, hfaces⟩ := version_counts_changes [.rule "body" red] (.faces [red, {}])
  have hne : ((run {} [.rule "body" red]).step (.faces [red, {}])).css ≠ (run {} [.rule "body" red]).css := by
    decide +kernel
  refine ⟨hne, hcss hne, ?_⟩
  rcases hfaces with ⟨e, he, -⟩ | ⟨-, hversion⟩
  · cases he
  · rw [hversion]
    rfl

end Registry

end StyleEngine
