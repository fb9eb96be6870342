import StyleEngine.Proofs.Registry.Ownership
import StyleEngine.Proofs.Registry.Repeat
import StyleEngine.Proofs.Text.Base36

/-!
# What the name of keyframes denotes

Keyframes are stored under their name alone, and what comes later under the same name is dropped. A name
tells the hash that it was generated from, whatever debug name stands in front of it (`generatedName_inj`),
and every stored block is named by its own frames (`named_run`). So a name that is returned denotes the
frames it was returned for, unless their text has the hash of another text (`name_denotes_frames`).
-/

namespace StyleEngine

namespace Text

/-- Two texts are different and have one hash. -/
def Collide (a b : String) : Prop := a ≠ b ∧ hash a = hash b

end Text

namespace Registry

variable {xs : List Registration} {key? : Option RuleKey} {name : String}
  {frames : List (String × List Declaration)} {i j : Nat}

/-- A generated name tells the debug name and the hash. The last underscore in it, if there is one, ends
the debug name, even if that looks like a generated name itself. -/
theorem generatedName_inj {p q : Option String} {h h' : String} (hh : '_' ∉ h.toList) (hh' : '_' ∉ h'.toList)
    (he : generatedName p h = generatedName q h') : p = q ∧ h = h' := by
  have hsuffix : ∀ {t : String}, '_' ∉ t.toList → '_' ∉ 'f' :: t.toList := fun ht hm =>
    (List.mem_cons.mp hm).elim (fun e => absurd e (by decide)) ht
  have hplain : ∀ {t : String}, (generatedName none t).toList = 'f' :: t.toList := by simp [generatedName]
  have hnamed : ∀ {n t : String}, (generatedName (some n) t).toList = n.toList ++ '_' :: 'f' :: t.toList := by
    simp [generatedName]
  rw [← String.toList_inj] at he
  cases p with
  | none =>
    cases q with
    | none =>
      rw [hplain, hplain] at he
      exact ⟨rfl, String.toList_inj.mp (List.cons.inj he).2⟩
    | some m =>
      rw [hplain, hnamed] at he
      exact absurd (he ▸ List.mem_append_right _ List.mem_cons_self) (hsuffix hh)
  | some n =>
    cases q with
    | none =>
      rw [hplain, hnamed] at he
      exact absurd (he ▸ List.mem_append_right _ List.mem_cons_self) (hsuffix hh')
    | some m =>
      rw [hnamed, hnamed] at he
      obtain ⟨hname, hhash⟩ := last_halves_eq (hsuffix hh) (hsuffix hh') he
      exact ⟨congrArg some (String.toList_inj.mp hname), String.toList_inj.mp (List.cons.inj hhash).2⟩

/-! ## Blocks and their names -/

/-- A block of keyframes has a name that was generated from its own frames. -/
def Named (slot : Option RuleKey × Rule) : Prop :=
  ∀ name frames, slot.2 = .keyframes name frames →
    ∃ debugName?, name = generatedName debugName? (Text.hash (framesCss frames)) ∧ debugName? ≠ some ""

theorem ne_keyframes_ofNodes {sharing : Sharing} {nodes : List FlatNode} {slot : Option RuleKey × Rule}
    (hs : slot ∈ RuleSet.ofNodes sharing nodes) : slot.2 ≠ .keyframes name frames := by
  intro he
  have hall : slot.2.All (fun _ => True) (fun _ => True) fun _ => True :=
    RuleSet.all_ofNodes
      (fun node _ => FlatNode.all_of_forall (fun _ => trivial) (fun _ => trivial) (fun _ => trivial) node) slot hs
  rw [he] at hall
  cases hall

/-- Only keyframes bring blocks of keyframes. -/
theorem exists_keyframes_of_mem_slots {x : Registration} (h : (key?, .keyframes name frames) ∈ x.slots) :
    ∃ k debug, x = .keyframes k debug ∧ name = framesName k debug frames := by
  obtain ⟨c, hc, he⟩ := Registration.exists_compiled_of_mem_slots h
  cases x with
  | style d debug =>
    rw [Registration.compiled] at hc
    split at hc
    · exact absurd he (ne_keyframes_ofNodes hc)
    · exact absurd hc List.not_mem_nil
  | rule selector d =>
    rw [Registration.compiled] at hc
    split at hc
    · exact absurd he (ne_keyframes_ofNodes hc)
    · exact absurd hc List.not_mem_nil
  | faces ds =>
    rw [Registration.compiled] at hc
    split at hc
    · obtain ⟨face, -, rfl⟩ := List.mem_map.mp hc
      cases he
    · exact absurd hc List.not_mem_nil
  | keyframes k debug =>
    rw [Registration.compiled] at hc
    split at hc
    · exact absurd hc List.not_mem_nil
    · rw [List.mem_singleton.mp hc] at he
      cases he
      exact ⟨k, debug, rfl, rfl⟩
    · exact absurd hc List.not_mem_nil

theorem shownName?_ne_empty (k : Keyframes) (debug : Bool) :
    (if debug then k.shownName? else none) ≠ some "" := by
  split
  · intro h
    have hne := (Option.filter_eq_some_iff.mp h).2
    exact absurd hne (by decide)
  · exact nofun

theorem named_slots (x : Registration) : ∀ slot ∈ x.slots, Named slot := by
  rintro ⟨key?, rule⟩ hs name frames rfl
  obtain ⟨k, debug, -, rfl⟩ := exists_keyframes_of_mem_slots hs
  exact ⟨_, rfl, shownName?_ne_empty k debug⟩

/-- Every stored block is named by its own frames. -/
theorem named_run (xs : List Registration) : ∀ slot ∈ (run {} xs).rules, Named slot := by
  intro slot hs
  obtain ⟨x, -, origin, hmem, hev⟩ := mem_slots_run hs
  cases hev with
  | same => exact named_slots x slot hmem
  | gather | redeclare => exact nofun

theorem key_of_keyframes (h : (key?, .keyframes name frames) ∈ (run {} xs).rules) :
    key? = some (.keyframes name) := by
  have hfits := fits_run xs _ h
  cases key? with
  | none => exact absurd hfits id
  | some key =>
    cases key with
    | keyframes n =>
      obtain rfl : name = n := hfits
      rfl
    | shared | unique | owned | literal | atRule => exact absurd hfits id

/-- A name has one block. -/
theorem index_of_keyframes {key?' : Option RuleKey} {frames' : List (String × List Declaration)}
    (hi : (run {} xs).rules[i]? = some (key?, .keyframes name frames))
    (hj : (run {} xs).rules[j]? = some (key?', .keyframes name frames')) : i = j := by
  obtain rfl := key_of_keyframes (List.mem_of_getElem? hi)
  obtain rfl := key_of_keyframes (List.mem_of_getElem? hj)
  exact RuleSet.position_unique (keyTexts_nodup_run xs) hi hj

/-- After keyframes with a frame were registered there is a block under their name. -/
theorem exists_block_of_mem {k : Keyframes} {debug : Bool} (hx : .keyframes k debug ∈ xs)
    (hframes : compileFrames k.frames = .ok frames) (hne : frames ≠ []) :
    ∃ (i : Nat) (stored : List (String × List Declaration)),
      (run {} xs).rules[i]? = some (some (.keyframes (framesName k debug frames)),
        .keyframes (framesName k debug frames) stored) := by
  have hslot : (some (.keyframes (framesName k debug frames)), .keyframes (framesName k debug frames) frames) ∈
      xs.flatMap Registration.slots := by
    refine List.mem_flatMap.mpr ⟨_, hx, ?_⟩
    rw [slots_keyframes hframes hne]
    exact List.mem_singleton_self _
  obtain ⟨rule, hmem⟩ : ∃ rule, (some (.keyframes (framesName k debug frames)), rule) ∈ (run {} xs).rules := by
    rw [rules_run]
    exact RuleSet.exists_key_depositAll hslot fun _ => RuleKey.eq_of_text_keyframes
  have hfits := fits_run xs _ hmem
  cases rule with
  | style | atRule => exact absurd hfits id
  | keyframes n stored =>
    obtain rfl : n = framesName k debug frames := hfits
    obtain ⟨i, hi⟩ := List.mem_iff_getElem?.mp hmem
    exact ⟨i, stored, hi⟩

/-- Each name has one block, which is named by its own frames. After keyframes with a frame are registered
there is a block under the name that is returned, and whatever is registered next leaves it as it is; its
frames have the text of those that were registered, or another text with the same hash. -/
theorem name_denotes_frames (xs : List Registration) :
    (∀ (i j : Nat) key? key?' name frames frames', (run {} xs).rules[i]? = some (key?, .keyframes name frames) →
      (run {} xs).rules[j]? = some (key?', .keyframes name frames') → i = j) ∧
    (∀ slot ∈ (run {} xs).rules, Named slot) ∧
    ∀ k debug name r frames, (run {} xs).registerKeyframes k debug = .ok (name, r) →
      compileFrames k.frames = .ok frames → frames ≠ [] →
      ∃ (i : Nat) (key? : Option RuleKey) (stored : List (String × List Declaration)),
        r.rules[i]? = some (key?, .keyframes name stored) ∧
        (framesCss stored = framesCss frames ∨ Text.Collide (framesCss stored) (framesCss frames)) ∧
        ∀ ys, (r.run ys).rules[i]? = some (key?, .keyframes name stored) := by
  refine ⟨fun _ _ _ _ _ _ _ hi hj => index_of_keyframes hi hj, named_run xs, ?_⟩
  intro k debug name r frames h hframes hne
  have hr : r = run {} (xs ++ [.keyframes k debug]) := by rw [run_snoc, apply_keyframes h]
  have hname : name = framesName k debug frames := by
    obtain ⟨own, hown, hname, -⟩ := exists_frames_of_registerKeyframes h
    obtain rfl := Except.ok.inj (hframes.symm.trans hown)
    exact hname
  subst hr hname
  have hx : .keyframes k debug ∈ xs ++ [.keyframes k debug] := List.mem_append_right _ List.mem_cons_self
  obtain ⟨i, stored, hi⟩ := exists_block_of_mem hx hframes hne
  refine ⟨i, _, stored, hi, ?_, lasting_run (.keyframes _ _ _) hi⟩
  obtain ⟨debugName?, hsame, -⟩ := named_run _ _ (List.mem_of_getElem? hi) _ _ rfl
  have hhash : Text.hash (framesCss stored) = Text.hash (framesCss frames) :=
    (generatedName_inj (Text.underscore_notMem_base36 _) (Text.underscore_notMem_base36 _) hsame).2.symm
  by_cases htext : framesCss stored = framesCss frames
  · exact .inl htext
  · exact .inr ⟨htext, hhash⟩

/-- The frames of `blush` behind a debug name that looks like a generated name. -/
def glow : Keyframes := blush.withDebugName "f_f1"

def glowName : String := framesName glow true [("to", redStyle.declarations)]

def glowRun : List Registration := [.keyframes blush false, .keyframes glow true]

theorem name_denotes_frames_glow :
    (run {} [.keyframes blush false]).registerKeyframes glow true = .ok (glowName, run {} glowRun) ∧
    glowName = "f_f1_" ++ blushName ∧
    ∃ (i : Nat) (key? : Option RuleKey) (stored : List (String × List Declaration)),
      (run {} glowRun).rules[i]? = some (key?, .keyframes glowName stored) ∧
      (framesCss stored = "to\x7bcolor:red\x7d" ∨ Text.Collide (framesCss stored) "to\x7bcolor:red\x7d") ∧
      ∀ ys, ((run {} glowRun).run ys).rules[i]? = some (key?, .keyframes glowName stored) := by
  have h : (run {} [.keyframes blush false]).registerKeyframes glow true = .ok (glowName, run {} glowRun) := rfl
  have hcss : framesCss [("to", redStyle.declarations)] = "to\x7bcolor:red\x7d" := by decide +kernel
  obtain ⟨-, -, hdenotes⟩ := name_denotes_frames [.keyframes blush false]
  have hstored := hdenotes glow true _ _ [("to", redStyle.declarations)] h rfl (by decide)
  rw [hcss] at hstored
  exact ⟨h, by decide +kernel, hstored⟩

end Registry

end StyleEngine
