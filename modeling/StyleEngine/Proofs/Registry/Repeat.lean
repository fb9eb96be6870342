import StyleEngine.Proofs.Registry.Addressing

/-!
# Registering again

What was registered once is absorbed at any later time. A rule keeps its place and its key, a shared
block never loses a selector, and only literal rules are declared anew; so the rules of a style and
its selectors are still there (`registerStyle_of_mem`), and keyframes still have their name
(`registerKeyframes_of_mem`).
-/

namespace StyleEngine

namespace Registry

variable {xs : List Registration}

theorem coveredBy_refl (style : NormalStyle) : CoveredBy style style :=
  fun e he => ⟨e, he, rfl, fun _ _ hs => hs⟩

/-- After a run that has a style in it, registering that style changes nothing. -/
theorem registerStyle_of_mem {d : Description} {debug : Bool} {style : NormalStyle}
    (h : d.normalize debug = .ok style) (hx : .style d debug ∈ xs) :
    (run {} xs).registerStyle d debug = .ok (className style, run {} xs) := by
  have habs := absorbs_of_coveredBy hx h h (coveredBy_refl style)
  rw [registerStyle_of_normalize h, RuleSet.depositAll_of_absorbs habs]
  rfl

variable {k : Keyframes} {debug : Bool} {frames : List (String × List Declaration)}

theorem slots_keyframes (h : compileFrames k.frames = .ok frames) (hne : frames ≠ []) :
    (Registration.keyframes k debug).slots =
      [(some (.keyframes (framesName k debug frames)), .keyframes (framesName k debug frames) frames)] := by
  obtain ⟨first, rest, rfl⟩ := List.exists_cons_of_ne_nil hne
  rw [Registration.slots, Registration.compiled, h]
  rfl

/-- After a run that has keyframes in it, registering them changes nothing. -/
theorem registerKeyframes_of_mem (h : compileFrames k.frames = .ok frames) (hx : .keyframes k debug ∈ xs) :
    (run {} xs).registerKeyframes k debug = .ok (framesName k debug frames, run {} xs) := by
  rw [registerKeyframes_eq, h]
  show Except.ok (framesName k debug frames, if frames.isEmpty then run {} xs else
    (run {} xs).update ((run {} xs).rules.insertKeyframes (framesName k debug frames) frames)) = _
  by_cases hne : frames = []
  · rw [if_pos (List.isEmpty_iff.mpr hne)]
  · have hslot : (some (.keyframes (framesName k debug frames)), .keyframes (framesName k debug frames) frames) ∈
        (Registration.keyframes k debug).slots := by
      rw [slots_keyframes h hne]
      exact List.mem_singleton_self _
    have hpresent : ∃ slot ∈ (run {} xs).rules,
        RuleSet.holds (.keyframes (framesName k debug frames)) slot = true := by
      rw [rules_run]
      exact RuleSet.exists_holds_depositAll _ (List.mem_flatMap.mpr ⟨_, hx, hslot⟩)
    have habs : (run {} xs).rules.insertKeyframes (framesName k debug frames) frames = ((run {} xs).rules, false) :=
      RuleSet.absorbs_of_present (fun hg => hg) (fun _ hl => by cases hl) hpresent
    rw [if_neg fun he => hne (List.isEmpty_iff.mp he), habs]
    rfl

theorem apply_style {r r' : Registry} {d : Description} {name : String}
    (h : r.registerStyle d debug = .ok (name, r')) : r.step (.style d debug) = r' := by
  rw [step, apply, h]
  rfl

theorem apply_keyframes {r r' : Registry} {name : String} (h : r.registerKeyframes k debug = .ok (name, r')) :
    r.step (.keyframes k debug) = r' := by
  rw [step, apply, h]
  rfl

/-- A style and keyframes that were registered are, whatever is registered next, returned under the
same name when they are registered again, and the registry stays as it is. -/
theorem register_again (xs ys : List Registration) :
    (∀ d debug name r, (run {} xs).registerStyle d debug = .ok (name, r) →
      (r.run ys).registerStyle d debug = .ok (name, r.run ys)) ∧
    (∀ k debug name r, (run {} xs).registerKeyframes k debug = .ok (name, r) →
      (r.run ys).registerKeyframes k debug = .ok (name, r.run ys)) := by
  constructor
  · intro d debug name r h
    obtain ⟨style, hstyle, rfl, -⟩ := exists_style_of_registerStyle h
    have hrun : r.run ys = run {} (xs ++ .style d debug :: ys) := by
      rw [run_append, ← apply_style h]
      rfl
    rw [hrun]
    exact registerStyle_of_mem hstyle (List.mem_append_right _ List.mem_cons_self)
  · intro k debug name r h
    obtain ⟨frames, hframes, rfl, -⟩ := exists_frames_of_registerKeyframes h
    have hrun : r.run ys = run {} (xs ++ .keyframes k debug :: ys) := by
      rw [run_append, ← apply_keyframes h]
      rfl
    rw [hrun]
    exact registerKeyframes_of_mem hframes (List.mem_append_right _ List.mem_cons_self)

/-- Keyframes with one red frame. -/
def blush : Keyframes := Keyframes.frame {} "to" red

def blushName : String := framesName blush false [("to", redStyle.declarations)]

theorem register_again_redRun :
    (run {} []).registerStyle red false = .ok (className redStyle, run {} [.style red false]) ∧
    (run {} []).registerKeyframes blush false = .ok (blushName, run {} [.keyframes blush false]) ∧
    ((run {} [.style red false]).run redRun).registerStyle red false =
      .ok (className redStyle, (run {} [.style red false]).run redRun) ∧
    ((run {} [.keyframes blush false]).run redRun).registerKeyframes blush false =
      .ok (blushName, (run {} [.keyframes blush false]).run redRun) := by
  have hstyle : (run {} []).registerStyle red false = .ok (className redStyle, run {} [.style red false]) := rfl
  have hframes : (run {} []).registerKeyframes blush false =
      .ok (blushName, run {} [.keyframes blush false]) := rfl
  have h := register_again [] redRun
  exact ⟨hstyle, hframes, h.1 _ _ _ _ hstyle, h.2 _ _ _ _ hframes⟩

end Registry

end StyleEngine
