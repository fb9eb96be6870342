import Mathlib.Data.List.Forall2
import StyleEngine.Proofs.RuleSet.Reading
import StyleEngine.Registry

/-!
# One text, one rule set

Styles are named by the text of their rules, and the bodies of at-rules are told apart by theirs. Where no
text in a rule contains a brace or a semicolon, and no property a colon, the text of a rule set tells its
rules, at any depth: which of them are blocks, their declarations, and their selectors as far as these show
in the list that is written (`css_eq_iff_agree`).
-/

namespace StyleEngine

/-- The characters that end nothing in the text of a rule set. -/
def Unpunctuated (c : Char) : Prop := c ∉ ['{', '}', ';']

instance : DecidablePred Unpunctuated := fun c => inferInstanceAs (Decidable (c ∉ _))

theorem Unpunctuated.unbraced {c : Char} (h : Unpunctuated c) : Unbraced c := by
  constructor
  · rintro rfl; exact h (by simp)
  · rintro rfl; exact h (by simp)

/-! ## Blocks -/

namespace Declaration

/-- The text of the declaration tells its property and its value, and where it ends. -/
def Readable (d : Declaration) : Prop := d.Texts Unpunctuated ∧ AllChars (· ≠ ':') d.property

theorem Readable.unbraced {d : Declaration} (h : d.Readable) : d.Texts Unbraced := h.1.mono fun _ hc => hc.unbraced

instance (d : Declaration) : Decidable d.Readable := by
  unfold Readable Texts
  infer_instance

theorem css_inj {d e : Declaration} (hd : d.Readable) (he : e.Readable) (h : d.css = e.css) : d = e := by
  have hcss : ∀ d : Declaration, d.css.toList = d.property.toList ++ ':' :: d.value.toList :=
    fun d => by simp [css]
  rw [← String.toList_inj, hcss, hcss] at h
  obtain ⟨hproperty, hvalue⟩ := first_halves_eq (fun hm => hd.2 _ hm rfl) (fun hm => he.2 _ hm rfl) h
  obtain ⟨property, value⟩ := d
  obtain ⟨property', value'⟩ := e
  obtain rfl : property = property' := String.toList_inj.mp hproperty
  obtain rfl : value = value' := String.toList_inj.mp hvalue
  rfl

theorem Readable.css {d : Declaration} (h : d.Readable) : AllChars (· ≠ ';') d.css := by
  have hmono : ∀ {s : String}, AllChars Unpunctuated s → AllChars (· ≠ ';') s := fun hs =>
    hs.mono fun c hc => by rintro rfl; exact hc (by simp)
  exact ((hmono h.1.1).append (by decide)).append (hmono h.1.2)

/-- A block tells its declarations. -/
theorem cssAll_inj {ds ds' : List Declaration} (hne : ds ≠ []) (hne' : ds' ≠ [])
    (h : ∀ d ∈ ds, d.Readable) (h' : ∀ d ∈ ds', d.Readable) (he : cssAll ds = cssAll ds') : ds = ds' := by
  have hsemicolon : ∀ {ds : List Declaration}, (∀ d ∈ ds, d.Readable) →
      ∀ s ∈ ds.map css, AllChars (· ≠ ';') s := by
    intro ds hds s hs
    obtain ⟨d, hd, rfl⟩ := List.mem_map.mp hs
    exact (hds d hd).css
  have hmap : ds.map css = ds'.map css :=
    intercalate_inj rfl (by simpa using hne) (by simpa using hne') (hsemicolon h) (hsemicolon h') he
  clear he hne hne'
  induction ds generalizing ds' with
  | nil => exact (List.map_eq_nil_iff.mp hmap.symm).symm
  | cons d rest ih =>
    cases ds' with
    | nil => cases hmap
    | cons d' rest' =>
      obtain ⟨hcss, hrest⟩ := List.cons.inj hmap
      rw [css_inj (h d List.mem_cons_self) (h' d' List.mem_cons_self) hcss,
        ih (fun e he => h e (List.mem_cons_of_mem _ he)) (fun e he => h' e (List.mem_cons_of_mem _ he)) hrest]

end Declaration

/-! ## Rules -/

/-- No text in the rule has a brace or a semicolon in it, and no property a colon. -/
inductive Rule.Readable : Rule → Prop
  | style {selectors : List String} {declarations : List Declaration} {unique : Bool}
      (hs : ∀ s ∈ selectors, AllChars Unpunctuated s) (hd : ∀ d ∈ declarations, d.Readable) :
      Readable (.style selectors declarations unique)
  | atRule {rule : String} {body : RuleSet} (ha : AllChars Unpunctuated rule)
      (hb : ∀ slot ∈ body, Readable slot.2) : Readable (.atRule rule body)

/-- The same rule, up to the mark of a unique one and up to how the text of the selectors is divided. -/
inductive Rule.Agrees : Rule → Rule → Prop
  | style {selectors others : List String} {declarations : List Declaration} {unique unique' : Bool}
      (h : Selector.joinList selectors = Selector.joinList others) :
      Agrees (.style selectors declarations unique) (.style others declarations unique')
  | atRule {rule : String} {body others : RuleSet}
      (h : List.Forall₂ (fun slot other => Agrees slot.2 other.2) body others) :
      Agrees (.atRule rule body) (.atRule rule others)
  | keyframes {name : String} {frames : List (String × List Declaration)} :
      Agrees (.keyframes name frames) (.keyframes name frames)

namespace RuleSet

/-- Rule by rule the same, whatever the keys. -/
abbrev Agree (rules others : RuleSet) : Prop :=
  List.Forall₂ (fun slot other => slot.2.Agrees other.2) rules others

/-- A readable rule that is not empty and writes its selectors. -/
abbrev ReadableRule : Rule → Prop :=
  Rule.All (fun s => s ≠ "" ∧ AllChars Unpunctuated s) Declaration.Readable (AllChars Unpunctuated)

theorem ReadableRule.unbraced {rule : Rule} (h : ReadableRule rule) : UnbracedRule rule :=
  Rule.All.mono h (fun _ hs => ⟨hs.1, hs.2.mono fun _ hc => hc.unbraced⟩)
    (fun _ hd => hd.unbraced) fun _ ha => ha.mono fun _ hc => hc.unbraced

theorem readableRule_of_all {S : String → Prop} (hS : ∀ s, S s → s ≠ "") {rule : Rule}
    (h : rule.All S (fun _ => True) fun _ => True) (hr : rule.Readable) : ReadableRule rule := by
  induction h with
  | style hne hs hdne =>
    cases hr with
    | style hclean hd => exact .style hne (fun s hm => ⟨hS s (hs s hm), hclean s hm⟩) hdne hd
  | atRule _ hne _ ih =>
    cases hr with
    | atRule ha hb => exact .atRule ha hne fun slot hs => ih slot hs (hb slot hs)

theorem forall₂_iff_map_eq {α β γ : Type} {R : α → β → Prop} {f : α → γ} {g : β → γ} {l : List α} {l' : List β}
    (hR : ∀ a ∈ l, ∀ b ∈ l', (R a b ↔ f a = g b)) : List.Forall₂ R l l' ↔ l.map f = l'.map g := by
  induction l generalizing l' with
  | nil => cases l' <;> simp
  | cons a l ih =>
    cases l' with
    | nil => simp
    | cons b l' =>
      rw [List.forall₂_cons, List.map_cons, List.map_cons, List.cons_eq_cons,
        hR a List.mem_cons_self b List.mem_cons_self,
        ih fun a ha b hb => hR a (List.mem_cons_of_mem _ ha) b (List.mem_cons_of_mem _ hb)]

/-- One row of frames, one text, and the other way round. -/
theorem frames_iff_css {rules others : RuleSet} (h : ∀ slot ∈ rules, ReadableRule slot.2)
    (h' : ∀ slot ∈ others, ReadableRule slot.2) :
    rules.map (·.2.frame) = others.map (·.2.frame) ↔ css rules = css others :=
  ⟨css_of_frames h h' fun _ h => h.1,
    frames_of_css (fun s hs => ReadableRule.unbraced (h s hs)) fun s hs => ReadableRule.unbraced (h' s hs)⟩

/-- Rules agree if they are written as one frame, and only then. -/
theorem agrees_iff_frame {rule other : Rule} (h : ReadableRule rule) (h' : ReadableRule other) :
    rule.Agrees other ↔ rule.frame = other.frame := by
  induction h generalizing other with
  | style hne hs hdne hd =>
    cases h' with
    | style hne' hs' hdne' hd' =>
      constructor
      · rintro ⟨hlist⟩
        exact Prod.ext hlist rfl
      · intro he
        obtain ⟨hlist, hblock⟩ := Prod.mk.inj he
        obtain rfl := Declaration.cssAll_inj hdne hdne' hd hd' hblock
        exact .style hlist
    | atRule _ hne' hb' =>
      have hblock := cssAll_ne_css (fun d hm => (hd d hm).unbraced) hne' fun s hs => ReadableRule.unbraced (hb' s hs)
      exact ⟨(nomatch ·), fun he => absurd (Prod.mk.inj he).2 hblock⟩
  | @atRule rule body _ hne hb ih =>
    cases h' with
    | style _ _ _ hd' =>
      have hblock := cssAll_ne_css (fun d hm => (hd' d hm).unbraced) hne fun s hs => ReadableRule.unbraced (hb s hs)
      exact ⟨(nomatch ·), fun he => absurd (Prod.mk.inj he).2.symm hblock⟩
    | @atRule rule' others _ _ hb' =>
      have hframes : Agree body others ↔ body.map (·.2.frame) = others.map (·.2.frame) :=
        forall₂_iff_map_eq fun slot hs other ho => ih slot hs (hb' other ho)
      have hbody := hframes.trans (frames_iff_css hb hb')
      constructor
      · rintro ⟨⟩
        next hagree => exact Prod.ext rfl (hbody.mp hagree)
      · intro he
        obtain ⟨hrule, hcss⟩ := Prod.mk.inj he
        exact hrule ▸ .atRule (hbody.mpr hcss)

/-- The rules whose text a style is hashed by. -/
def hashed (style : NormalStyle) : RuleSet := ofNodes .byDeclarations (style.flatten Registry.hashRoot)

/-- Under `&` no rule is empty, and each writes its selectors. -/
theorem readableRule_of_hashed {style : NormalStyle} (h : ∀ slot ∈ hashed style, slot.2.Readable) :
    ∀ slot ∈ hashed style, ReadableRule slot.2 := by
  have hroot : Selector.Solid Registry.hashRoot.toList := Selector.solid_amp
  exact fun slot hs => readableRule_of_all (fun _ hw => hroot.ne_empty_of_within hw)
    (all_ofNodes_within hroot style slot hs) (h slot hs)

/-- Readable rules of two styles have one text if and only if they are the same at every depth, up to the marks
of unique rules and the way in which the text of a selector list is divided. -/
theorem css_eq_iff_agree {n m : NormalStyle} (hn : ∀ slot ∈ hashed n, slot.2.Readable)
    (hm : ∀ slot ∈ hashed m, slot.2.Readable) :
    css (hashed n) = css (hashed m) ↔ Agree (hashed n) (hashed m) := by
  have hn' := readableRule_of_hashed hn
  have hm' := readableRule_of_hashed hm
  have hagree : Agree (hashed n) (hashed m) ↔ (hashed n).map (·.2.frame) = (hashed m).map (·.2.frame) :=
    forall₂_iff_map_eq fun slot hs other ho => agrees_iff_frame (hn' slot hs) (hm' other ho)
  exact (hagree.trans (frames_iff_css hn' hm')).symm

/-- A rule for a selector list, and a unique rule in an at-rule. -/
def listedStyle : NormalStyle :=
  { nested := [("&,&:b", { declarations := [⟨"color", "red"⟩] }),
      ("@media print", { declarations := [⟨"color", "red"⟩], unique := true })] }

/-- The same text from two rules that share a block, and a rule that is not unique. -/
def sharedStyle : NormalStyle :=
  { declarations := [⟨"color", "red"⟩]
    nested := [("&:b", { declarations := [⟨"color", "red"⟩] }),
      ("@media print", { declarations := [⟨"color", "red"⟩] })] }

theorem css_eq_iff_agree_listedStyle :
    (∀ slot ∈ hashed listedStyle, slot.2.Readable) ∧ (∀ slot ∈ hashed sharedStyle, slot.2.Readable) ∧
    css (hashed listedStyle) = "&,&:b\x7bcolor:red\x7d@media print\x7b&\x7bcolor:red\x7d\x7d" ∧
    css (hashed listedStyle) = css (hashed sharedStyle) ∧ Agree (hashed listedStyle) (hashed sharedStyle) ∧
    (hashed listedStyle).map Prod.snd ≠ (hashed sharedStyle).map Prod.snd := by
  have hred : ∀ d ∈ [(⟨"color", "red"⟩ : Declaration)], d.Readable := by decide
  have hlisted : hashed listedStyle =
      [(some (.shared "color:red"), .style ["&,&:b"] [⟨"color", "red"⟩] false),
        (some (.atRule "@media print" "&\x7bcolor:red\x7d"), .atRule "@media print"
          [(some (.unique "&" "color:red"), .style ["&"] [⟨"color", "red"⟩] true)])] := rfl
  have hshared : hashed sharedStyle =
      [(some (.shared "color:red"), .style ["&", "&:b"] [⟨"color", "red"⟩] false),
        (some (.atRule "@media print" "&\x7bcolor:red\x7d"), .atRule "@media print"
          [(some (.shared "color:red"), .style ["&"] [⟨"color", "red"⟩] false)])] := rfl
  have hn : ∀ slot ∈ hashed listedStyle, slot.2.Readable := by
    rw [hlisted, List.forall_mem_cons, List.forall_mem_singleton]
    refine ⟨.style (by decide) hred, .atRule (by decide) ?_⟩
    exact List.forall_mem_singleton.mpr (.style (by decide) hred)
  have hm : ∀ slot ∈ hashed sharedStyle, slot.2.Readable := by
    rw [hshared, List.forall_mem_cons, List.forall_mem_singleton]
    refine ⟨.style (by decide) hred, .atRule (by decide) ?_⟩
    exact List.forall_mem_singleton.mpr (.style (by decide) hred)
  have hcss : css (hashed listedStyle) = css (hashed sharedStyle) := rfl
  refine ⟨hn, hm, rfl, hcss, (css_eq_iff_agree hn hm).mp hcss, ?_⟩
  rw [hlisted, hshared]
  intro he
  exact absurd (Rule.style.inj (List.cons.inj he).1).1 (by decide)

end RuleSet

end StyleEngine
