import StyleEngine.Proofs.Registry.Attempt
import StyleEngine.Proofs.RuleSet.Content

/-!
# Registry runs

A run is a list of registrations from the empty registry; one that fails leaves the registry as it
is. Whatever was registered, the rules at the end are the deposits of all registrations in order
(`rules_run`).
-/

namespace StyleEngine

/-- What may be asked of a registry. -/
inductive Registration where
  | style (d : Description) (debug : Bool)
  | rule (selector : String) (d : Description)
  | faces (ds : List Description)
  | keyframes (k : Keyframes) (debug : Bool)

namespace Registry

/-- The selector of the class of a style. -/
def root (style : NormalStyle) : String := Selector.ofClass (className style)

def apply (r : Registry) : Registration → Except StyleError Registry
  | .style d debug => (r.registerStyle d debug).map Prod.snd
  | .rule selector d => r.registerRule selector d
  | .faces ds => r.registerFaces ds
  | .keyframes k debug => (r.registerKeyframes k debug).map Prod.snd

/-- The registry after a registration that may fail. -/
def step (r : Registry) (x : Registration) : Registry :=
  match r.apply x with
  | .ok r' => r'
  | .error _ => r

def run (r : Registry) (xs : List Registration) : Registry := xs.foldl step r

end Registry

namespace Registration

open Registry

/-- The rules that a registration compiles. One that fails compiles none. -/
def compiled : Registration → RuleSet
  | style d debug =>
    match d.normalize debug with
    | .ok normal => compile normal (className normal)
    | .error _ => []
  | rule selector d =>
    match d.normalize false with
    | .ok normal => RuleSet.ofNodes .bySelector (literalNodes selector normal)
    | .error _ => []
  | faces ds =>
    match compileFaces ds with
    | .ok own =>
      (own.filter (!·.isEmpty)).map fun ds => (none, .style ["@font-face"] (Declaration.sort ds) true)
    | .error _ => []
  | keyframes k debug =>
    match compileFrames k.frames with
    | .ok [] => []
    | .ok frames =>
      let name := generatedName (if debug then k.shownName? else none) (Text.hash (framesCss frames))
      [(some (.keyframes name), .keyframes name frames)]
    | .error _ => []

/-- The compiled rules under the keys under which the registry stores them. -/
def slots (x : Registration) : RuleSet :=
  match x with
  | style d debug =>
    match d.normalize debug with
    | .ok normal => RuleSet.rekey (RuleKey.ofStyle (root normal)) x.compiled
    | .error _ => []
  | rule _ _ => RuleSet.rekey RuleKey.ofLiteral x.compiled
  | faces _ | keyframes _ _ => x.compiled

/-- Every slot holds a rule that was compiled. -/
theorem exists_compiled_of_mem_slots {x : Registration} {slot : Option RuleKey × Rule}
    (h : slot ∈ x.slots) : ∃ c ∈ x.compiled, c.2 = slot.2 := by
  cases x with
  | style d debug =>
    rw [slots] at h
    split at h
    · obtain ⟨c, hc, -, rfl⟩ := RuleSet.mem_rekey.mp h
      exact ⟨c, hc, rfl⟩
    · exact absurd h List.not_mem_nil
  | rule selector d =>
    obtain ⟨c, hc, -, rfl⟩ := RuleSet.mem_rekey.mp h
    exact ⟨c, hc, rfl⟩
  | faces ds => exact ⟨slot, h, rfl⟩
  | keyframes k debug => exact ⟨slot, h, rfl⟩

theorem slots_style {d : Description} {debug : Bool} {normal : NormalStyle}
    (h : d.normalize debug = .ok normal) :
    (style d debug).slots =
      RuleSet.rekey (RuleKey.ofStyle (root normal)) (compile normal (className normal)) := by
  simp only [slots, compiled, h]

/-- What a slot looks like, by the registration that brings it. -/
inductive Brings : Registration → Option RuleKey × Rule → Prop
  | style {d : Description} {debug : Bool} {normal : NormalStyle} {c : Option RuleKey × Rule}
      (hd : d.normalize debug = .ok normal) (hc : c ∈ compile normal (className normal)) :
      Brings (style d debug) (some (c.2.key (RuleKey.ofStyle (root normal))), c.2)
  | rule (selector : String) (d : Description) (r : Rule) :
      Brings (rule selector d) (some (r.key RuleKey.ofLiteral), r)
  | face (ds : List Description) (declarations : List Declaration) :
      Brings (faces ds) (none, .style ["@font-face"] declarations true)
  | frames (k : Keyframes) (debug : Bool) (name : String) (frames : List (String × List Declaration)) :
      Brings (keyframes k debug) (some (.keyframes name), .keyframes name frames)

theorem brings_of_mem_slots {x : Registration} {slot : Option RuleKey × Rule} (h : slot ∈ x.slots) :
    Brings x slot := by
  cases x with
  | style d debug =>
    cases hd : d.normalize debug with
    | error e => rw [slots, hd] at h; exact absurd h List.not_mem_nil
    | ok normal =>
      rw [slots_style hd] at h
      obtain ⟨c, hc, -, rfl⟩ := RuleSet.mem_rekey.mp h
      exact .style hd hc
  | rule selector d =>
    obtain ⟨c, -, -, rfl⟩ := RuleSet.mem_rekey.mp h
    exact .rule selector d c.2
  | faces ds =>
    rw [slots, compiled] at h
    split at h
    · obtain ⟨face, -, rfl⟩ := List.mem_map.mp h
      exact .face ds _
    · exact absurd h List.not_mem_nil
  | keyframes k debug =>
    rw [slots, compiled] at h
    split at h
    · exact absurd h List.not_mem_nil
    · rw [List.mem_singleton.mp h]
      exact .frames k debug _ _
    · exact absurd h List.not_mem_nil

/-- What holds of the rules that nodes compile to, of faces and of animations with a frame holds of every
rule that a registration brings. -/
theorem forall_slots {P : Rule → Prop} (x : Registration)
    (hstyle : ∀ d debug normal, x = style d debug → d.normalize debug = .ok normal →
      ∀ c ∈ compile normal (className normal), P c.2)
    (hrule : ∀ selector d normal, x = rule selector d → d.normalize false = .ok normal →
      ∀ c ∈ RuleSet.ofNodes .bySelector (literalNodes selector normal), P c.2)
    (hface : ∀ face, face ≠ [] → P (.style ["@font-face"] (Declaration.sort face) true))
    (hframes : ∀ fs name frames, compileFrames fs = .ok frames → frames ≠ [] → P (.keyframes name frames)) :
    ∀ slot ∈ x.slots, P slot.2 := by
  intro slot hs
  obtain ⟨c, hc, he⟩ := exists_compiled_of_mem_slots hs
  rw [← he]
  cases x with
  | style d debug =>
    rw [compiled] at hc
    split at hc
    · next normal hd => exact hstyle d debug normal rfl hd c hc
    · exact absurd hc List.not_mem_nil
  | rule selector d =>
    rw [compiled] at hc
    split at hc
    · next normal hd => exact hrule selector d normal rfl hd c hc
    · exact absurd hc List.not_mem_nil
  | faces ds =>
    rw [compiled] at hc
    split at hc
    · obtain ⟨face, hface', rfl⟩ := List.mem_map.mp hc
      exact hface face (by simpa using (List.mem_filter.mp hface').2)
    · exact absurd hc List.not_mem_nil
  | keyframes k debug =>
    rw [compiled] at hc
    split at hc
    · exact absurd hc List.not_mem_nil
    · next frames hne hk =>
      rw [List.mem_singleton.mp hc]
      exact hframes k.frames _ frames hk fun he => hne (he ▸ rfl)
    · exact absurd hc List.not_mem_nil

theorem distinct_slots (x : Registration) : ∀ slot ∈ x.slots, slot.2.Distinct :=
  x.forall_slots (fun _ _ _ _ _ => RuleSet.distinct_ofNodes _) (fun _ _ _ _ _ => RuleSet.distinct_ofNodes _)
    (fun _ _ => List.nodup_cons.mpr ⟨List.not_mem_nil, List.nodup_nil⟩) fun _ _ _ _ _ => trivial

theorem fits_slots (x : Registration) : ∀ slot ∈ x.slots, RuleSet.Fits slot := by
  intro slot hs
  cases brings_of_mem_slots hs with
  | style _ _ => exact RuleSet.fits_ofStyle _ _
  | rule _ _ r => exact RuleSet.fits_ofLiteral r
  | face | frames => trivial

/-- The keys that rules of styles alone may have. -/
def OfStyles : RuleKey → Prop
  | .shared _ | .unique _ _ | .owned _ _ => True
  | .literal _ | .atRule _ _ | .keyframes _ => False

/-- A slot under such a key comes from a style, which compiled its rule. -/
theorem exists_style_of_key {x : Registration} {key : RuleKey} {rule : Rule} (h : (some key, rule) ∈ x.slots)
    (hk : OfStyles key) :
    ∃ d debug normal c, x = style d debug ∧ d.normalize debug = .ok normal ∧
      c ∈ compile normal (className normal) ∧ c.2 = rule ∧ rule.key (RuleKey.ofStyle (root normal)) = key := by
  have hb := brings_of_mem_slots h
  generalize hslot : ((some key, rule) : Option RuleKey × Rule) = slot at hb
  cases hb with
  | face => cases hslot
  | frames =>
    obtain rfl := Option.some.inj (Prod.mk.inj hslot).1
    exact absurd hk id
  | rule _ _ r =>
    obtain ⟨hkey, rfl⟩ := Prod.mk.inj hslot
    obtain rfl := Option.some.inj hkey
    cases rule <;> exact absurd hk id
  | @style d debug normal c hd hc =>
    obtain ⟨hkey, rfl⟩ := Prod.mk.inj hslot
    exact ⟨d, debug, normal, c, rfl, hd, hc, rfl, (Option.some.inj hkey).symm⟩

/-- The slots under a shared block are the root-sharing rules of styles with that block. -/
theorem exists_style_of_shared {x : Registration} {block : String} {rule : Rule}
    (h : (some (.shared block), rule) ∈ x.slots) :
    ∃ d debug normal selectors declarations, x = style d debug ∧ d.normalize debug = .ok normal ∧
      rule = .style selectors declarations false ∧ root normal ∈ selectors ∧
      Declaration.cssAll declarations = block ∧ rule ∈ (compile normal (className normal)).map Prod.snd := by
  obtain ⟨d, debug, normal, c, rfl, hd, hc, rfl, hkey⟩ := exists_style_of_key h trivial
  obtain ⟨selectors, declarations, hrule, hroot, hblock⟩ := RuleSet.style_of_key_shared hkey
  exact ⟨d, debug, normal, selectors, declarations, rfl, hd, hrule, hroot, hblock, List.mem_map_of_mem hc⟩

end Registration

namespace Registry

theorem rules_update {r : Registry} (x : RuleSet × Bool) : (r.update x).rules = x.1 := rfl

theorem rules_addFaces (faces : List (List Declaration)) (r : Registry) :
    (faces.foldl addFace r).rules = (RuleSet.depositAll r.rules
      (faces.map fun ds => (none, .style ["@font-face"] (Declaration.sort ds) true))).1 := by
  induction faces generalizing r with
  | nil => rfl
  | cons ds rest ih => rw [List.foldl_cons, ih]; rfl

theorem rules_step (r : Registry) (x : Registration) :
    (r.step x).rules = (RuleSet.depositAll r.rules x.slots).1 := by
  cases x with
  | style d debug =>
    cases hd : d.normalize debug with
    | error e => simp only [step, apply, registerStyle_eq, Registration.slots, hd]; rfl
    | ok normal =>
      rw [Registration.slots_style hd]
      simp only [step, apply, registerStyle_eq, hd, Except.map, rules_update,
        RuleSet.mergeStyle_eq_depositAll]
      rfl
  | rule selector d =>
    simp only [step, apply, registerRule_eq, Registration.slots, Registration.compiled]
    cases d.normalize false with
    | error e => rfl
    | ok normal => simp only [Except.map, rules_update, RuleSet.mergeLiteral_eq_depositAll]
  | faces ds =>
    simp only [step, apply, registerFaces_eq, Registration.slots, Registration.compiled]
    cases compileFaces ds with
    | error e => rfl
    | ok own => exact rules_addFaces _ r
  | keyframes k debug =>
    simp only [step, apply, registerKeyframes_eq, Registration.slots, Registration.compiled]
    cases compileFrames k.frames with
    | error e => rfl
    | ok frames => cases frames <;> rfl

theorem run_append (r : Registry) (xs ys : List Registration) : r.run (xs ++ ys) = (r.run xs).run ys :=
  List.foldl_append

theorem run_snoc (r : Registry) (xs : List Registration) (x : Registration) :
    r.run (xs ++ [x]) = (r.run xs).step x := by
  rw [run, List.foldl_append]
  rfl

/-- The rules at the end of a run are the deposits of its registrations. -/
theorem rules_run (xs : List Registration) (r : Registry) :
    (r.run xs).rules = (RuleSet.depositAll r.rules (xs.flatMap Registration.slots)).1 := by
  induction xs generalizing r with
  | nil => rfl
  | cons x rest ih =>
    have hrest : (r.run (x :: rest)).rules = ((r.step x).run rest).rules := rfl
    rw [hrest, ih, rules_step, List.flatMap_cons, RuleSet.depositAll_append]

theorem fits_run (xs : List Registration) : ∀ slot ∈ (run {} xs).rules, RuleSet.Fits slot := by
  rw [rules_run]
  refine RuleSet.fits_depositAll (fun _ h => absurd h List.not_mem_nil) fun slot hs => ?_
  obtain ⟨x, -, hs⟩ := List.mem_flatMap.mp hs
  exact x.fits_slots slot hs

theorem distinct_run (xs : List Registration) : ∀ slot ∈ (run {} xs).rules, slot.2.Distinct := by
  rw [rules_run]
  refine RuleSet.distinct_depositAll (fun _ h => absurd h List.not_mem_nil) fun slot hs => ?_
  obtain ⟨x, -, hs⟩ := List.mem_flatMap.mp hs
  exact x.distinct_slots slot hs

theorem keyTexts_nodup_run (xs : List Registration) :
    (RuleSet.keyTexts (run {} xs).rules).Nodup := by
  rw [rules_run]
  exact RuleSet.keyTexts_nodup_depositAll List.nodup_nil

end Registry

end StyleEngine
