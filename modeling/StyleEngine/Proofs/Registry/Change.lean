import StyleEngine.Proofs.Registry.Attempt
import StyleEngine.Proofs.RuleSet.Unchanged
import StyleEngine.Proofs.Style.Texts

/-!
# What the change flag says

The version goes up with the flag of a merge, so a registry whose version stands still has kept its
rules (`Registry.Advance`).
-/

namespace StyleEngine

namespace Registry

/-- Either nothing happened or the version went up. -/
def Advance (before after : Registry) : Prop := after = before ∨ before.version < after.version

theorem Advance.trans {a b c : Registry} (hab : Advance a b) (hbc : Advance b c) : Advance a c := by
  rcases hab with rfl | hab
  · exact hbc
  · rcases hbc with rfl | hbc
    · exact .inr hab
    · exact .inr (Nat.lt_trans hab hbc)

theorem advance_update {step : RuleSet → RuleSet × Bool} (hs : RuleSet.Honest step) (r : Registry) :
    Advance r (r.update (step r.rules)) := by
  cases hc : (step r.rules).2 with
  | false =>
    left
    simp only [update, hc, hs r.rules hc, Bool.false_eq_true, if_false]
  | true =>
    right
    simp only [update, hc, if_true]
    exact Nat.lt_succ_self _

theorem advance_registerStyle {r r' : Registry} {d : Description} {debug : Bool} {name : String}
    (h : r.registerStyle d debug = .ok (name, r')) : Advance r r' := by
  obtain ⟨style, -, -, rfl⟩ := exists_style_of_registerStyle h
  simp only [RuleSet.mergeStyle_eq_depositAll]
  exact advance_update (RuleSet.honest_depositAll _) r

theorem advance_registerRule {r r' : Registry} {selector : String} {d : Description}
    (h : r.registerRule selector d = .ok r') : Advance r r' := by
  rw [registerRule_eq] at h
  obtain ⟨style, -, rfl⟩ := ok_of_map_ok h
  simp only [RuleSet.mergeLiteral_eq_depositAll]
  exact advance_update (RuleSet.honest_depositAll _) r

theorem advance_foldl_addFace (faces : List (List Declaration)) (r : Registry) :
    Advance r (faces.foldl addFace r) := by
  induction faces generalizing r with
  | nil => exact .inl rfl
  | cons ds rest ih =>
    have hd : Advance r (r.addFace ds) := .inr (Nat.lt_succ_self _)
    exact hd.trans (ih _)

theorem advance_registerFaces {r r' : Registry} {ds : List Description}
    (h : r.registerFaces ds = .ok r') : Advance r r' := by
  rw [registerFaces_eq] at h
  obtain ⟨faces, -, rfl⟩ := ok_of_map_ok h
  exact advance_foldl_addFace _ r

theorem advance_registerKeyframes {r r' : Registry} {k : Keyframes} {debug : Bool} {name : String}
    (h : r.registerKeyframes k debug = .ok (name, r')) : Advance r r' := by
  obtain ⟨frames, -, -, rfl⟩ := exists_frames_of_registerKeyframes h
  split
  · exact .inl rfl
  · exact advance_update (RuleSet.honest_place Rule.honest_keep) r

end Registry

end StyleEngine
