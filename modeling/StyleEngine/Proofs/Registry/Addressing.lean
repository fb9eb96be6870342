import StyleEngine.Proofs.Registry.Hash
import StyleEngine.Proofs.Registry.Kept

/-!
# Styles under one class

Two descriptions with one text to hash have one class. Registering the second after the first is
redundant in every registry exactly when each rule that it compiles meets one of the first
(`CoveredBy`), and that is so whenever the texts of both styles tell their rules (`Transparent`). A
mark below the root is not told.
-/

namespace StyleEngine

namespace Registry

/-- Every rule that the second style compiles comes under the key of a rule of the first, and its
selectors are among those of that rule if the key gathers selectors. -/
def CoveredBy (first second : NormalStyle) : Prop :=
  ∀ e ∈ compile second (className second), ∃ f ∈ compile first (className first),
    f.2.key (RuleKey.ofStyle (root first)) = e.2.key (RuleKey.ofStyle (root second)) ∧
      ((e.2.key (RuleKey.ofStyle (root second))).Gathers → ∀ s ∈ e.2.selectors, s ∈ f.2.selectors)

/-- In every registry, registering the second description right after the first returns the same
class and leaves text and version as they are. -/
def Redundant (d₁ : Description) (debug₁ : Bool) (d₂ : Description) (debug₂ : Bool) : Prop :=
  ∀ xs, ∃ name r₁ r₂, (run {} xs).registerStyle d₁ debug₁ = .ok (name, r₁) ∧
    r₁.registerStyle d₂ debug₂ = .ok (name, r₂) ∧ r₂.css = r₁.css ∧ r₂.version = r₁.version

theorem registerStyle_of_normalize {d : Description} {debug : Bool} {style : NormalStyle}
    (h : d.normalize debug = .ok style) (r : Registry) :
    r.registerStyle d debug =
      .ok (className style, r.update (RuleSet.depositAll r.rules (Registration.style d debug).slots)) := by
  rw [Registration.slots_style h, root, ← RuleSet.mergeStyle_eq_depositAll, registerStyle_eq, h]
  rfl

theorem step_style {d : Description} {debug : Bool} {style : NormalStyle}
    (h : d.normalize debug = .ok style) (r : Registry) :
    r.step (.style d debug) =
      r.update (RuleSet.depositAll r.rules (Registration.style d debug).slots) := by
  rw [step, apply, registerStyle_of_normalize h]
  rfl

section

variable {d₁ d₂ : Description} {debug₁ debug₂ : Bool} {s₁ s₂ : NormalStyle}

/-- A style that is covered by one of the run is absorbed. -/
theorem absorbs_of_coveredBy {xs : List Registration} (hx : .style d₁ debug₁ ∈ xs)
    (h₁ : d₁.normalize debug₁ = .ok s₁) (h₂ : d₂.normalize debug₂ = .ok s₂) (hc : CoveredBy s₁ s₂) :
    ∀ x ∈ (Registration.style d₂ debug₂).slots, RuleSet.Absorbs (run {} xs).rules x := by
  intro x hslot
  rw [Registration.slots_style h₂] at hslot
  obtain ⟨e, he, -, rfl⟩ := RuleSet.mem_rekey.mp hslot
  obtain ⟨f, hf, hkey, hsel⟩ := hc e he
  have hmem : (some (e.2.key (RuleKey.ofStyle (root s₂))), f.2) ∈ (Registration.style d₁ debug₁).slots := by
    rw [Registration.slots_style h₁, ← hkey]
    exact RuleSet.mem_rekey.mpr ⟨f, hf, (all_compile_within s₁ f hf).isVoid, rfl⟩
  have hpresent : ∃ slot ∈ (run {} xs).rules,
      RuleSet.holds (e.2.key (RuleKey.ofStyle (root s₂))) slot = true := by
    rw [rules_run]
    exact RuleSet.exists_holds_depositAll _ (List.mem_flatMap.mpr ⟨_, hx, hmem⟩)
  by_cases hg : (e.2.key (RuleKey.ofStyle (root s₂))).Gathers
  · obtain ⟨block, hblock⟩ := RuleSet.gathers_ofStyle hg
    have hsel := hsel hg
    rw [hblock] at hkey hmem hpresent ⊢
    obtain ⟨ss₂, ds₂, hrule₂, -, -⟩ := RuleSet.style_of_key_shared hblock
    obtain ⟨ss₁, ds₁, hrule₁, -, -⟩ := RuleSet.style_of_key_shared hkey
    rw [hrule₁] at hmem hsel
    rw [hrule₂] at hsel ⊢
    refine (RuleSet.absorbs_shared_iff (fits_run xs) (keyTexts_nodup_run xs)).mpr ⟨?_, fun s hs => ?_⟩
    · obtain ⟨⟨key?, rule⟩, hm, hh⟩ := hpresent
      obtain ⟨k, rfl, ht⟩ := RuleSet.exists_key_of_holds hh
      exact ⟨rule, RuleKey.eq_of_text_shared ht ▸ hm⟩
    · exact lists_run.mpr ⟨_, hx, ss₁, ds₁, false, hmem, hsel s hs⟩
  · exact RuleSet.absorbs_of_present hg (RuleSet.ofStyle_ne_literal e.2) hpresent

/-- A style compiles one rule only that shares a block with roots. -/
theorem rule_eq_of_key_shared {style : NormalStyle} {name root block : String} {a b : Option RuleKey × Rule}
    (ha : a ∈ compile style name) (hb : b ∈ compile style name)
    (hka : a.2.key (RuleKey.ofStyle root) = .shared block) (hkb : b.2.key (RuleKey.ofStyle root) = .shared block) :
    a.2 = b.2 := by
  have hkey : ∀ c ∈ compile style name, c.2.key (RuleKey.ofStyle root) = .shared block →
      c.1 = some (.shared block) := by
    rintro ⟨key?, rule⟩ hc hk
    obtain ⟨ss, ds, rfl, -, rfl⟩ := RuleSet.style_of_key_shared hk
    exact RuleSet.key_of_mem_ofNodes hc
  obtain ⟨key?, first⟩ := a
  obtain ⟨key'?, second⟩ := b
  obtain rfl : key? = some (.shared block) := hkey _ ha hka
  obtain rfl : key'? = some (.shared block) := hkey _ hb hkb
  exact RuleSet.rule_unique (RuleSet.keyTexts_nodup_ofNodes _) ha hb

/-- A style that is absorbed right after another one was registered alone is covered by it. -/
theorem coveredBy_of_absorbs (h₁ : d₁.normalize debug₁ = .ok s₁) (h₂ : d₂.normalize debug₂ = .ok s₂)
    (ht : d₂.Texts Unseparated)
    (ha : ∀ x ∈ (Registration.style d₂ debug₂).slots,
      RuleSet.Absorbs (run {} [.style d₁ debug₁]).rules x) : CoveredBy s₁ s₂ := by
  intro e he
  have hall := all_compile_unseparated ht h₂ e he
  have hslot : (some (e.2.key (RuleKey.ofStyle (root s₂))), e.2) ∈ (Registration.style d₂ debug₂).slots := by
    rw [Registration.slots_style h₂]
    exact RuleSet.mem_rekey.mpr ⟨e, he, hall.isVoid, rfl⟩
  have habs := ha _ hslot
  -- the rule under the key comes from a rule of the first style
  obtain ⟨before, ⟨key?, stored⟩, after, hrules, -, hh, -⟩ := RuleSet.absorbs_iff.mp habs
  obtain ⟨k, rfl, htext⟩ := RuleSet.exists_key_of_holds hh
  obtain rfl := RuleKey.eq_of_text (hall.clean_key _) htext
  have hstored : (some (e.2.key (RuleKey.ofStyle (root s₂))), stored) ∈ (run {} [.style d₁ debug₁]).rules := by
    rw [hrules]
    exact List.mem_append_right _ List.mem_cons_self
  obtain ⟨x, hx, origin, horigin, hev⟩ := mem_slots_run hstored
  obtain rfl := List.mem_singleton.mp hx
  rw [Registration.slots_style h₁] at horigin
  obtain ⟨f, hf, -, rfl⟩ := RuleSet.mem_rekey.mp horigin
  have hkey : e.2.key (RuleKey.ofStyle (root s₂)) = f.2.key (RuleKey.ofStyle (root s₁)) :=
    Option.some.inj hev.key_eq
  refine ⟨f, hf, hkey.symm, fun hg s hs => ?_⟩
  obtain ⟨block, hblock⟩ := RuleSet.gathers_ofStyle hg
  obtain ⟨ss₂, ds₂, hrule₂, -, -⟩ := RuleSet.style_of_key_shared hblock
  rw [hblock, hrule₂] at habs
  rw [hrule₂] at hs
  have hlists := ((RuleSet.absorbs_shared_iff (fits_run _) (keyTexts_nodup_run _)).mp habs).2 s hs
  obtain ⟨y, hy, ss, ds, u, hm, hin⟩ := lists_run.mp hlists
  obtain rfl := List.mem_singleton.mp hy
  -- and the first style has one rule only under the block
  rw [Registration.slots_style h₁] at hm
  obtain ⟨g, hgm, -, hge⟩ := RuleSet.mem_rekey.mp hm
  obtain ⟨hgkey, hgrule⟩ := Prod.mk.inj hge
  rw [rule_eq_of_key_shared hf hgm (hkey.symm.trans hblock) (Option.some.inj hgkey), hgrule]
  exact hin

theorem className_eq (hname : s₁.debugName? = s₂.debugName?) (htext : hashText s₁ = hashText s₂) :
    className s₁ = className s₂ := by
  rw [className, className, hname, htext]

/-! ## One text to hash -/

/-- Compiled rules of one outline come under one key. -/
theorem key_of_outline {root : String} {a b : Option RuleKey × Rule} (ha : RuleSet.Fits a) (hb : RuleSet.Fits b)
    {key : RuleKey} (hkey : a.1 = some key) (hk : key.OfNode) (ho : RuleSet.outline a = RuleSet.outline b) :
    a.2.key (RuleKey.ofStyle root) = b.2.key (RuleKey.ofStyle root) := by
  obtain ⟨key?, first⟩ := a
  obtain ⟨key'?, second⟩ := b
  obtain rfl : key? = some key := hkey
  obtain ⟨hkeys, hrules⟩ := Prod.mk.inj ho
  obtain rfl : some key = key'? := hkeys
  have hselectors : first.selectors = second.selectors := (Rule.style.inj hrules).1
  cases key with
  | owned | literal | keyframes => exact absurd hk id
  | shared block | unique selector block =>
    cases first with
    | atRule | keyframes => exact absurd ha id
    | style ss ds u =>
      cases second with
      | atRule | keyframes => exact absurd hb id
      | style ss' ds' u' =>
        obtain rfl : ss = ss' := hselectors
        obtain ⟨rfl, hblock⟩ := ha
        obtain ⟨rfl, hblock'⟩ := hb
        rw [Rule.key, Rule.key, RuleKey.ofStyle, RuleKey.ofStyle, hblock, hblock']
  | atRule rule text =>
    cases first with
    | style | keyframes => exact absurd ha id
    | atRule r body =>
      cases second with
      | style | keyframes => exact absurd hb id
      | atRule r' body' =>
        obtain ⟨rfl, hbody⟩ := ha
        obtain ⟨rfl, hbody'⟩ := hb
        rw [Rule.key, Rule.key, hbody, hbody']

theorem coveredBy_of_outline (hname : className s₁ = className s₂)
    (ho : (compile s₁ (className s₁)).map RuleSet.outline = (compile s₂ (className s₂)).map RuleSet.outline) :
    CoveredBy s₁ s₂ := by
  intro e he
  obtain ⟨f, hf, hfe⟩ := List.mem_map.mp (ho ▸ List.mem_map_of_mem he)
  obtain ⟨key, hkey, hk⟩ := RuleSet.key_of_ofNodes f hf
  have hroot : root s₁ = root s₂ := by rw [root, root, hname]
  refine ⟨f, hf, ?_, fun _ s hs => ?_⟩
  · rw [hroot]
    exact key_of_outline (RuleSet.fits_ofNodes f hf) (RuleSet.fits_ofNodes e he) hkey hk hfe
  · have hselectors : f.2.selectors = e.2.selectors := (Rule.style.inj (Prod.mk.inj hfe).2).1
    rw [hselectors]
    exact hs

theorem redundant_of_coveredBy (h₁ : d₁.normalize debug₁ = .ok s₁) (h₂ : d₂.normalize debug₂ = .ok s₂)
    (hname : className s₁ = className s₂) (hc : CoveredBy s₁ s₂) : Redundant d₁ debug₁ d₂ debug₂ := by
  intro xs
  have hmem : Registration.style d₁ debug₁ ∈ xs ++ [.style d₁ debug₁] :=
    List.mem_append_right _ (List.mem_singleton_self _)
  have habs := RuleSet.depositAll_of_absorbs (absorbs_of_coveredBy hmem h₁ h₂ hc)
  have hlast : run {} (xs ++ [.style d₁ debug₁]) =
      (run {} xs).update (RuleSet.depositAll (run {} xs).rules (Registration.style d₁ debug₁).slots) := by
    rw [run_snoc, step_style h₁]
  refine ⟨className s₁, run {} (xs ++ [.style d₁ debug₁]), run {} (xs ++ [.style d₁ debug₁]), ?_, ?_,
    rfl, rfl⟩
  · rw [registerStyle_of_normalize h₁, hlast]
  · rw [registerStyle_of_normalize h₂, habs, hname]
    rfl

theorem coveredBy_of_redundant (h₁ : d₁.normalize debug₁ = .ok s₁) (h₂ : d₂.normalize debug₂ = .ok s₂)
    (ht : d₂.Texts Unseparated) (hred : Redundant d₁ debug₁ d₂ debug₂) : CoveredBy s₁ s₂ := by
  refine coveredBy_of_absorbs h₁ h₂ ht (RuleSet.absorbs_of_depositAll ?_)
  obtain ⟨name, r₁, r₂, hr₁, hr₂, -, hversion⟩ := hred []
  have hrun : run {} [.style d₁ debug₁] = r₁ := by
    rw [registerStyle_of_normalize h₁] at hr₁
    exact (step_style h₁ _).trans (Prod.mk.inj (Except.ok.inj hr₁)).2
  rw [registerStyle_of_normalize h₂] at hr₂
  rw [← (Prod.mk.inj (Except.ok.inj hr₂)).2] at hversion
  rw [hrun]
  cases hflag : (RuleSet.depositAll r₁.rules (Registration.style d₂ debug₂).slots).2 with
  | false => rfl
  | true =>
    simp only [update, hflag, if_true] at hversion
    omega

/-- Of two descriptions with one debug name and one text to hash, the second is redundant after the
first exactly when its rules are covered. They are when the texts of both styles tell their rules. -/
theorem redundant_iff (h₁ : d₁.normalize debug₁ = .ok s₁) (h₂ : d₂.normalize debug₂ = .ok s₂)
    (ht₁ : d₁.Texts Ordinary) (ht₂ : d₂.Texts Ordinary) (hname : s₁.debugName? = s₂.debugName?)
    (htext : hashText s₁ = hashText s₂) :
    (Redundant d₁ debug₁ d₂ debug₂ ↔ CoveredBy s₁ s₂) ∧
      (s₁.Transparent → s₂.Transparent → Redundant d₁ debug₁ d₂ debug₂) := by
  have hclass := className_eq hname htext
  refine ⟨⟨coveredBy_of_redundant h₁ h₂ (ht₂.mono fun _ hc => hc.unseparated),
    redundant_of_coveredBy h₁ h₂ hclass⟩, fun hclear₁ hclear₂ => ?_⟩
  refine redundant_of_coveredBy h₁ h₂ hclass (coveredBy_of_outline hclass ?_)
  rw [← hclass]
  exact outline_compile_of_hashText hclear₁ hclear₂ (ht₁.ordinary_normalize h₁) (ht₂.ordinary_normalize h₂)
    htext (solid_root s₁)

end

/-! ## Red, wrapped and marked -/

theorem texts_wrap {P : Char → Prop} {d : Description} {key : String} (hk : AllChars P key) (hd : d.Texts P) :
    (d.wrap key).Texts P := by
  refine .mk (fun _ he => absurd he List.not_mem_nil) (fun _ he => absurd he List.not_mem_nil)
    (fun e he => ?_) (fun e he => ?_)
  · obtain rfl := List.mem_singleton.mp he
    exact hk
  · obtain rfl := List.mem_singleton.mp he
    exact hd

theorem texts_withUnique {P : Char → Prop} {d : Description} (hd : d.Texts P) (unique : Bool) :
    (d.withUnique unique).Texts P := by
  obtain ⟨hp, hv, hk, hc⟩ := hd
  exact .mk hp hv hk hc

theorem transparent_redStyle : redStyle.Transparent :=
  ⟨(fun h => nomatch h), fun _ he => absurd he List.not_mem_nil,
    .mk (fun _ _ => trivial) (fun _ he => absurd he List.not_mem_nil) (fun _ he => absurd he List.not_mem_nil)⟩

/-- Red, one level down. -/
def wrappedStyle : NormalStyle := { nested := [("&", redStyle)] }

theorem transparent_wrappedStyle : wrappedStyle.Transparent := by
  refine ⟨(fun h => nomatch h), fun e he => ?_, .mk (fun _ _ => trivial) (fun e he => ?_) fun e he => ?_⟩
  · obtain rfl := List.mem_singleton.mp he
    exact .mk fun _ he => absurd he List.not_mem_nil
  · obtain rfl := List.mem_singleton.mp he
    exact fun _ => by decide
  · obtain rfl := List.mem_singleton.mp he
    exact transparent_redStyle.uncut

theorem redundant_iff_wrapped :
    (red.wrap "&").normalize false = .ok wrappedStyle ∧ red.normalize false = .ok redStyle ∧
    (red.wrap "&").Texts Ordinary ∧ red.Texts Ordinary ∧ wrappedStyle.debugName? = redStyle.debugName? ∧
    hashText wrappedStyle = hashText redStyle ∧ Redundant (red.wrap "&") false red false := by
  have ht : red.Texts Ordinary := texts_red (by decide) (by decide)
  have ht' : (red.wrap "&").Texts Ordinary := texts_wrap (by decide) ht
  have htext : hashText wrappedStyle = hashText redStyle := by decide +kernel
  have hnormal : (red.wrap "&").normalize false = .ok wrappedStyle := rfl
  have hred : red.normalize false = .ok redStyle := rfl
  have h := redundant_iff hnormal hred ht' ht rfl htext
  exact ⟨hnormal, hred, ht', ht, rfl, htext, h.2 transparent_wrappedStyle transparent_redStyle⟩

/-- Red, one level down and marked unique there. -/
def marked : Description := (red.withUnique true).wrap "&"

def markedStyle : NormalStyle := { nested := [("&", { redStyle with unique := true })] }

/-- The mark below the root is not in the text to hash, and red is written twice under one class. -/
theorem red_twice_after_marked :
    marked.normalize false = .ok markedStyle ∧ red.normalize false = .ok redStyle ∧
    marked.Texts Ordinary ∧ red.Texts Ordinary ∧ markedStyle.debugName? = redStyle.debugName? ∧
    hashText markedStyle = hashText redStyle ∧
    (run {} [.style marked false]).css = ".f5cwk4x\x7bcolor:red\x7d" ∧
    (run {} [.style marked false]).version = 1 ∧
    (run {} [.style marked false, .style red false]).css =
      ".f5cwk4x\x7bcolor:red\x7d.f5cwk4x\x7bcolor:red\x7d" ∧
    (run {} [.style marked false, .style red false]).version = 2 := by
  have ht : red.Texts Ordinary := texts_red (by decide) (by decide)
  refine ⟨rfl, rfl, texts_wrap (by decide) (texts_withUnique ht true), ht, rfl, ?_, ?_, ?_, ?_, ?_⟩
  · decide +kernel
  · decide +kernel
  · decide +kernel
  · decide +kernel
  · decide +kernel

end Registry

end StyleEngine
