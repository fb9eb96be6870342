import StyleEngine.Proofs.Registry.Animation
import StyleEngine.Proofs.RuleSet.Separator
import StyleEngine.Proofs.Text.Identifier

/-!
# Headers of keyframes

The selector of a class escapes the class name, but the header of keyframes has their name as it is. So the
header declares the animation that was returned only if the name is an identifier without escapes: always when
no debug name shows, and else exactly when the debug name is plain (`keyframes_header`).
-/

namespace StyleEngine.Registry

variable {xs : List Registration} {k : Keyframes} {debug : Bool} {name : String} {r : Registry}
  {frames : List (String × List Declaration)}

/-- A generated name needs no escapes exactly when its debug name needs none in front of an underscore. -/
theorem identifier_generatedName_iff (debugName? : Option String) (s : String) :
    Text.identifier (generatedName debugName? (Text.hash s)) = generatedName debugName? (Text.hash s) ↔
      ∀ shown, debugName? = some shown → Text.Plain shown.toList := by
  have hhash : ∀ c ∈ (Text.hash s).toList, Text.isNameChar c = true := Text.allChars_hash (by decide) s
  have htail : ∀ c ∈ 'f' :: (Text.hash s).toList, Text.isNameChar c = true :=
    List.forall_mem_cons.mpr ⟨by decide, hhash⟩
  rw [Text.identifier, ← String.toList_inj, String.toList_ofList, Text.identChars_eq_self_iff]
  cases debugName? with
  | none =>
    have hlist : (generatedName none (Text.hash s)).toList = 'f' :: (Text.hash s).toList := by
      simp [generatedName]
    rw [hlist]
    refine ⟨fun _ shown h => absurd h (by simp), fun _ =>
      ⟨⟨htail, ?_⟩, fun h => absurd (List.cons.inj h).1 (by decide)⟩⟩
    rintro c rest (h | h)
    · rw [← (List.cons.inj h).1]
      decide
    · exact absurd (List.cons.inj h).1 (by decide)
  | some shown =>
    have hlist : (generatedName (some shown) (Text.hash s)).toList =
        shown.toList ++ '_' :: ('f' :: (Text.hash s).toList) := by simp [generatedName]
    rw [hlist, Text.plain_append_iff]
    constructor
    · rintro ⟨⟨hplain, -⟩, -⟩ other he
      obtain rfl := Option.some.inj he
      exact hplain
    · intro h
      refine ⟨⟨h shown rfl, htail⟩, fun he => ?_⟩
      have hmem : '_' ∈ ['-'] := he ▸ List.mem_append_right _ List.mem_cons_self
      exact absurd hmem (by decide)

/-- Keyframes with a frame are written, in every registry that comes later, behind a header that is their name
as it was returned. That is the name as an identifier exactly when the debug name, if it shows, is plain. -/
theorem keyframes_header (h : (run {} xs).registerKeyframes k debug = .ok (name, r))
    (hframes : compileFrames k.frames = .ok frames) (hne : frames ≠ []) :
    (∀ ys, ∃ before stored after front rest,
      (r.run ys).rules = before ++ (some (.keyframes name), .keyframes name stored) :: after ∧
      (r.run ys).css = front ++ ("@keyframes " ++ name ++ "\x7b" ++ framesCss stored ++ "\x7d") ++ rest ∧
      (front = RuleSet.css before ∨ front = RuleSet.css before ++ ";")) ∧
    (Text.identifier name = name ↔
      (debug = true → ∀ shown, k.shownName? = some shown → Text.Plain shown.toList)) := by
  obtain ⟨own, hown, rfl, -⟩ := exists_frames_of_registerKeyframes h
  obtain rfl := Except.ok.inj (hframes.symm.trans hown)
  constructor
  · intro ys
    have hrun : r.run ys = run {} (xs ++ .keyframes k debug :: ys) := by
      rw [run_append, ← apply_keyframes h]
      rfl
    have hx : .keyframes k debug ∈ xs ++ .keyframes k debug :: ys := List.mem_append_right _ List.mem_cons_self
    obtain ⟨i, stored, hi⟩ := exists_block_of_mem hx hframes hne
    rw [← hrun] at hi
    obtain ⟨before, after, hrules⟩ := List.append_of_mem (List.mem_of_getElem? hi)
    obtain ⟨rest, hcss, -⟩ := RuleSet.css_append_cons before after _
    rw [← hrules] at hcss
    refine ⟨before, stored, after, _, rest, hrules, hcss, ?_⟩
    unfold Piece.lead
    split
    · exact .inr rfl
    · exact .inl String.append_empty
  · rw [framesName, identifier_generatedName_iff]
    cases debug with
    | false => exact ⟨fun _ => nofun, fun _ _ => nofun⟩
    | true => exact ⟨fun h _ => h, fun h => h rfl⟩

/-- Keyframes with a debug name that starts like a number. -/
def dawn : Keyframes := blush.withDebugName "1st dawn"

theorem keyframes_header_glow :
    (run {} [.keyframes blush false]).registerKeyframes glow true = .ok (glowName, run {} glowRun) ∧
    (∀ ys, ∃ before stored after front rest,
      ((run {} glowRun).run ys).rules = before ++ (some (.keyframes glowName), .keyframes glowName stored) :: after ∧
      ((run {} glowRun).run ys).css =
        front ++ ("@keyframes " ++ glowName ++ "\x7b" ++ framesCss stored ++ "\x7d") ++ rest ∧
      (front = RuleSet.css before ∨ front = RuleSet.css before ++ ";")) ∧
    Text.identifier glowName = glowName := by
  have h : (run {} [.keyframes blush false]).registerKeyframes glow true = .ok (glowName, run {} glowRun) := rfl
  have hframes : compileFrames glow.frames = .ok [("to", redStyle.declarations)] := rfl
  obtain ⟨hheader, hident⟩ := keyframes_header h hframes (by decide)
  refine ⟨h, hheader, hident.mpr fun _ shown hshown => ?_⟩
  obtain rfl : "f_f1" = shown := Option.some.inj hshown
  exact ⟨List.all_eq_true.mp (by decide), by rintro c rest (h | h) <;> cases h; rfl⟩

/-- The header is not the name as an identifier. -/
theorem dawn_header_unescaped : ∃ name r, (run {} []).registerKeyframes dawn true = .ok (name, r) ∧
    name = "1st dawn_fyrmb4c" ∧ r.css = "@keyframes 1st dawn_fyrmb4c\x7bto\x7bcolor:red\x7d\x7d" ∧
    Text.identifier name = "\\31 st\\ dawn_fyrmb4c" := by
  refine ⟨_, _, rfl, ?_, ?_, ?_⟩
  · decide +kernel
  · decide +kernel
  · decide +kernel

end StyleEngine.Registry
