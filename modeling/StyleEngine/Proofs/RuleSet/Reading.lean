import StyleEngine.Proofs.RuleSet.Content
import StyleEngine.Proofs.RuleSet.Outline
import StyleEngine.Proofs.Text.Braces

/-!
# Reading the text of a rule set

The text of a rule set is a row of frames, each a head and a body in braces. Outlines tell the frames
(`css_of_outline`). The frames of rules whose texts bring no braces of their own are read back from the
text (`frames_of_css`), and where they bring no commas either, the outlines are (`outline_of_css`).
-/

namespace StyleEngine

theorem toList_braced (head body : String) :
    (braced head body).toList = head.toList ++ '{' :: (body.toList ++ ['}']) := by
  simp [braced]

/-- What stands before the braces of a rule, and what stands in them. -/
def Rule.frame : Rule → String × String
  | style selectors declarations _ => (Selector.joinList selectors, Declaration.cssAll declarations)
  | atRule rule body => (rule, RuleSet.css body)
  | keyframes name frames => ("@keyframes " ++ name, framesCss frames)

variable {S A : String → Prop} {D : Declaration → Prop}

theorem Rule.All.mono {S' A' : String → Prop} {D' : Declaration → Prop} {rule : Rule} (h : rule.All S D A)
    (hS : ∀ s, S s → S' s) (hD : ∀ d, D d → D' d) (hA : ∀ a, A a → A' a) : rule.All S' D' A' := by
  induction h with
  | style hne hs hdne hd => exact .style hne (fun s hm => hS s (hs s hm)) hdne fun d hm => hD d (hd d hm)
  | atRule ha hne _ ih => exact .atRule (hA _ ha) hne ih

namespace RuleSet

/-! ## Frames -/

/-- A rule that is not bare is written in front of the others. -/
theorem css_cons {slot : Option RuleKey × Rule} (h : slot.2.isBare = false) (rest : RuleSet) :
    css (slot :: rest) = slot.2.css ++ css rest := by
  obtain ⟨key?, rule⟩ := slot
  have hbare : rule.isBare = false := h
  rw [css, cssFrom, css]
  split
  · next he => rw [String.isEmpty_iff.mp he]; simp
  · rw [hbare]; simp

theorem toList_css {rules : RuleSet} (h : ∀ slot ∈ rules, slot.2.isBare = false) :
    (css rules).toList = rules.flatMap fun slot => slot.2.css.toList := by
  induction rules with
  | nil => rfl
  | cons slot rest ih =>
    rw [css_cons (h slot List.mem_cons_self), String.toList_append, List.flatMap_cons,
      ih fun s hs => h s (List.mem_cons_of_mem _ hs)]

theorem css_atRule (rule : String) (body : RuleSet) :
    (Rule.atRule rule body).css = if (css body).isEmpty then "" else braced rule (css body) := by
  simp only [Rule.css]
  rfl

theorem isBare_of_all {rule : Rule} (h : rule.All S D A) (hS : ∀ s, S s → s ≠ "") : rule.isBare = false := by
  cases h with
  | atRule => rfl
  | @style selectors _ _ hne hs =>
    obtain ⟨s, rest, rfl⟩ := List.exists_cons_of_ne_nil hne
    have hne : s.isEmpty = false := by simpa using hS s (hs s List.mem_cons_self)
    simp [Rule.isBare, hne]

/-- A rule that is not empty is written as its frame. -/
theorem css_eq_braced {rule : Rule} (h : rule.All S D A) (hS : ∀ s, S s → s ≠ "") :
    rule.css = braced rule.frame.1 rule.frame.2 := by
  induction h with
  | style hne hs hdne =>
    obtain ⟨s, rest, rfl⟩ := List.exists_cons_of_ne_nil hne
    exact Rule.css_style hdne ⟨s, List.mem_cons_self, hS s (hs s List.mem_cons_self)⟩
  | @atRule rule body _ hne hb ih =>
    obtain ⟨slot, rest, rfl⟩ := List.exists_cons_of_ne_nil hne
    have hinner : ¬ (css (slot :: rest)).isEmpty = true := by
      intro hempty
      have hlist := toList_css fun s hs => isBare_of_all (hb s hs) hS
      rw [String.isEmpty_iff.mp hempty, List.flatMap_cons, ih slot List.mem_cons_self, toList_braced] at hlist
      simp at hlist
    rw [css_atRule, if_neg hinner]
    rfl

/-- The text of rules that are not empty is the row of their frames. -/
theorem toList_css_of_all {rules : RuleSet} (h : ∀ slot ∈ rules, slot.2.All S D A) (hS : ∀ s, S s → s ≠ "") :
    (css rules).toList = (rules.map (·.2.frame)).flatMap fun f => (braced f.1 f.2).toList := by
  rw [toList_css fun slot hs => isBare_of_all (h slot hs) hS, List.flatMap_map]
  simp only [List.flatMap_def]
  exact congrArg List.flatten (List.map_congr_left fun slot hs => by rw [css_eq_braced (h slot hs) hS])

/-- One row of frames, one text. -/
theorem css_of_frames {rules others : RuleSet} (h : ∀ slot ∈ rules, slot.2.All S D A)
    (h' : ∀ slot ∈ others, slot.2.All S D A) (hS : ∀ s, S s → s ≠ "")
    (he : rules.map (·.2.frame) = others.map (·.2.frame)) : css rules = css others := by
  rw [← String.toList_inj, toList_css_of_all h hS, toList_css_of_all h' hS, he]

/-- The frame that the key of a slot tells. -/
def frame : Option RuleKey × Rule → String × String
  | (some (.shared block), rule) => (Selector.joinList rule.selectors, block)
  | (some (.atRule rule body), _) => (rule, body)
  | _ => ("", "")

/-- The slot has a key that tells its body, and a rule that is not empty. -/
structure Framed (S : String → Prop) (D : Declaration → Prop) (A : String → Prop)
    (slot : Option RuleKey × Rule) : Prop where
  told : ∃ key, slot.1 = some key ∧ key.Told
  fits : Fits slot
  all : slot.2.All S D A

theorem Framed.cases {slot : Option RuleKey × Rule} (h : Framed S D A slot) :
    (∃ selectors declarations, slot = (some (.shared (Declaration.cssAll declarations)),
        .style selectors declarations false) ∧ selectors ≠ [] ∧ (∀ s ∈ selectors, S s) ∧
        declarations ≠ [] ∧ ∀ d ∈ declarations, D d) ∨
    ∃ rule body, slot = (some (.atRule rule (css body)), .atRule rule body) ∧ A rule ∧ body ≠ [] ∧
      ∀ s ∈ body, s.2.All S D A := by
  obtain ⟨⟨key, hkey, hk⟩, hf, hall⟩ := h
  obtain ⟨key?, rule⟩ := slot
  obtain rfl : key? = some key := hkey
  cases key with
  | unique | owned | literal | keyframes => exact absurd hk id
  | shared block =>
    generalize hr : rule = r at hall hf
    cases hall with
    | atRule => exact absurd hf id
    | @style selectors declarations unique hne hs hdne hd =>
      obtain ⟨rfl, rfl⟩ := hf
      exact .inl ⟨selectors, declarations, rfl, hne, hs, hdne, hd⟩
  | atRule r text =>
    cases hall with
    | style => exact absurd hf id
    | @atRule rule body ha hne hb =>
      obtain ⟨rfl, rfl⟩ := hf
      exact .inr ⟨rule, body, rfl, ha, hne, hb⟩

/-- The key of a slot without separators has none. -/
theorem clean_of_fits {key : RuleKey} {rule : Rule} (hf : Fits (some key, rule)) (hk : key.Told)
    (h : rule.All (AllChars Unseparated) (Declaration.Texts Unseparated) (AllChars Unseparated)) :
    key.Clean := by
  obtain ⟨ss, ds, he, -, -, -, hd⟩ | ⟨r, body, he, ha, -, hb⟩ := (Framed.mk ⟨key, rfl, hk⟩ hf h).cases
  · obtain rfl := Option.some.inj (Prod.mk.inj he).1
    exact Declaration.allChars_cssAll marks_unseparated.2.1 marks_unseparated.2.2.1 hd
  · obtain rfl := Option.some.inj (Prod.mk.inj he).1
    exact ⟨ha, allChars_cssFrom marks_unseparated
      (fun slot hs => (hb slot hs).allChars_css marks_unseparated) false⟩

theorem Framed.frame_eq {slot : Option RuleKey × Rule} (h : Framed S D A slot) : slot.2.frame = frame slot := by
  obtain ⟨selectors, declarations, rfl, -⟩ | ⟨rule, body, rfl, -⟩ := h.cases <;> rfl

theorem frame_outline (slot : Option RuleKey × Rule) : frame (outline slot) = frame slot := by
  obtain ⟨key?, rule⟩ := slot
  cases key? with
  | none => rfl
  | some key => cases key <;> rfl

/-- One outline, one text. -/
theorem css_of_outline {rules others : RuleSet} (h : ∀ slot ∈ rules, Framed S D A slot)
    (h' : ∀ slot ∈ others, Framed S D A slot) (hS : ∀ s, S s → s ≠ "")
    (ho : rules.map outline = others.map outline) : css rules = css others := by
  have hframes : ∀ rules : RuleSet, (∀ slot ∈ rules, Framed S D A slot) →
      rules.map (·.2.frame) = (rules.map outline).map frame := by
    intro rules h
    rw [List.map_map]
    exact List.map_congr_left fun slot hs => ((h slot hs).frame_eq).trans (frame_outline slot).symm
  exact css_of_frames (fun s hs => (h s hs).all) (fun s hs => (h' s hs).all) hS
    (by rw [hframes rules h, ho, hframes others h'])

end RuleSet

/-! ## Reading -/

/-- The characters that have no meaning of their own in the text of a rule set or of a key. -/
def Ordinary (c : Char) : Prop := c ∉ ['{', '}', ';', '\x01']

instance : DecidablePred Ordinary := fun c => inferInstanceAs (Decidable (c ∉ _))

theorem Ordinary.unbraced {c : Char} (h : Ordinary c) : Unbraced c := by
  constructor
  · rintro rfl; exact h (by simp)
  · rintro rfl; exact h (by simp)

theorem Ordinary.unseparated {c : Char} (h : Ordinary c) : Unseparated c := by
  rintro rfl
  exact h (by simp)

/-- A selector that neither ends its rule nor continues its list. -/
def Selector.Simple (s : String) : Prop := s ≠ "" ∧ AllChars Ordinary s ∧ AllChars (· ≠ ',') s

/-- A list of selectors without commas is told by its text. -/
theorem Selector.joinList_inj {l l' : List String} (hne : l ≠ []) (hne' : l' ≠ [])
    (h : ∀ s ∈ l, AllChars (· ≠ ',') s) (h' : ∀ s ∈ l', AllChars (· ≠ ',') s)
    (he : joinList l = joinList l') : l = l' :=
  intercalate_inj rfl hne hne' h h' he

namespace RuleSet

/-- A rule that writes its selectors, and whose texts bring no braces. -/
abbrev UnbracedRule : Rule → Prop :=
  Rule.All (fun s => s ≠ "" ∧ AllChars Unbraced s) (Declaration.Texts Unbraced) (AllChars Unbraced)

/-- A rule of ordinary texts. -/
def OrdinaryRule : Rule → Prop :=
  Rule.All Selector.Simple (Declaration.Texts Ordinary) (AllChars Ordinary)

theorem OrdinaryRule.unbraced {rule : Rule} (h : OrdinaryRule rule) : UnbracedRule rule :=
  h.mono (fun _ hs => ⟨hs.1, hs.2.1.mono fun _ hc => hc.unbraced⟩) (fun _ hd => hd.mono fun _ hc => hc.unbraced)
    fun _ ha => ha.mono fun _ hc => hc.unbraced

theorem unbraced_cssAll {ds : List Declaration} (h : ∀ d ∈ ds, d.Texts Unbraced) :
    AllChars Unbraced (Declaration.cssAll ds) :=
  Declaration.allChars_cssAll (by decide) (by decide) h

/-- A frame is told from the text that it begins. -/
theorem braced_append_inj {head head' body body' : String} {rest rest' : List Char}
    (hh : AllChars Unbraced head) (hh' : AllChars Unbraced head') (hb : Balanced body.toList)
    (hb' : Balanced body'.toList)
    (he : (braced head body).toList ++ rest = (braced head' body').toList ++ rest') :
    head = head' ∧ body = body' ∧ rest = rest' := by
  have hassoc : ∀ (head body : String) (rest : List Char), (braced head body).toList ++ rest =
      head.toList ++ '{' :: (body.toList ++ '}' :: rest) := fun head body rest => by
    simp [toList_braced]
  rw [hassoc, hassoc] at he
  obtain ⟨hhead, hbody, hrest⟩ := head_body_rest_inj hh hh' hb hb' he
  exact ⟨String.toList_inj.mp hhead, String.toList_inj.mp hbody, hrest⟩

/-- The head of a frame has no braces, and those in its body are balanced. -/
theorem unbraced_frame {rule : Rule} (h : UnbracedRule rule) :
    AllChars Unbraced rule.frame.1 ∧ Balanced rule.frame.2.toList := by
  have hempty : Balanced [] := .flat fun _ hc => absurd hc List.not_mem_nil
  induction h with
  | style _ hs _ hd => exact ⟨Selector.allChars_joinList (by decide) fun s hm => (hs s hm).2, .flat (unbraced_cssAll hd)⟩
  | @atRule rule body ha hne hb ih =>
    refine ⟨ha, ?_⟩
    show Balanced (css body).toList
    rw [toList_css_of_all hb fun _ h => h.1]
    clear hne
    induction body with
    | nil => exact hempty
    | cons slot rest ihrest =>
      obtain ⟨hhead, hbody⟩ := ih slot List.mem_cons_self
      rw [List.map_cons, List.flatMap_cons, toList_braced]
      exact (Balanced.block hhead hbody hempty).append
        (ihrest (fun s hs => hb s (List.mem_cons_of_mem _ hs)) fun s hs => ih s (List.mem_cons_of_mem _ hs))

/-- No block of declarations is the text of a body: the body has braces in it. -/
theorem cssAll_ne_css {ds : List Declaration} {body : RuleSet} (hd : ∀ d ∈ ds, d.Texts Unbraced) (hne : body ≠ [])
    (hb : ∀ slot ∈ body, UnbracedRule slot.2) : Declaration.cssAll ds ≠ css body := by
  intro he
  have hopen : '{' ∈ (css body).toList := by
    obtain ⟨slot, rest, rfl⟩ := List.exists_cons_of_ne_nil hne
    rw [toList_css_of_all hb fun _ h => h.1, List.map_cons, List.flatMap_cons, toList_braced]
    simp
  exact (unbraced_cssAll hd '{' (he ▸ hopen)).1 rfl

/-- Frames are told from the text of their row. -/
theorem frames_inj {fs gs : List (String × String)} (hf : ∀ f ∈ fs, AllChars Unbraced f.1 ∧ Balanced f.2.toList)
    (hg : ∀ g ∈ gs, AllChars Unbraced g.1 ∧ Balanced g.2.toList)
    (he : (fs.flatMap fun f => (braced f.1 f.2).toList) = gs.flatMap fun g => (braced g.1 g.2).toList) :
    fs = gs := by
  have hnil : ∀ (f : String × String) (rest : List Char), (braced f.1 f.2).toList ++ rest ≠ [] := by
    intro f rest
    simp [toList_braced]
  induction fs generalizing gs with
  | nil =>
    cases gs with
    | nil => rfl
    | cons g gs => exact absurd he.symm (hnil g _)
  | cons f fs ih =>
    cases gs with
    | nil => exact absurd he (hnil f _)
    | cons g gs =>
      obtain ⟨hhead, hbody⟩ := hf f List.mem_cons_self
      obtain ⟨hhead', hbody'⟩ := hg g List.mem_cons_self
      rw [List.flatMap_cons, List.flatMap_cons] at he
      obtain ⟨he₁, he₂, hrest⟩ := braced_append_inj hhead hhead' hbody hbody' he
      rw [Prod.ext he₁ he₂, ih (fun f hm => hf f (List.mem_cons_of_mem _ hm))
        (fun g hm => hg g (List.mem_cons_of_mem _ hm)) hrest]

/-- One text, one row of frames. -/
theorem frames_of_css {rules others : RuleSet} (h : ∀ slot ∈ rules, UnbracedRule slot.2)
    (h' : ∀ slot ∈ others, UnbracedRule slot.2) (he : css rules = css others) :
    rules.map (·.2.frame) = others.map (·.2.frame) := by
  have hspec : ∀ {rules : RuleSet}, (∀ slot ∈ rules, UnbracedRule slot.2) →
      ∀ f ∈ rules.map (·.2.frame), AllChars Unbraced f.1 ∧ Balanced f.2.toList := by
    intro rules h f hm
    obtain ⟨slot, hs, rfl⟩ := List.mem_map.mp hm
    exact unbraced_frame (h slot hs)
  rw [← String.toList_inj, toList_css_of_all h fun _ h => h.1, toList_css_of_all h' fun _ h => h.1] at he
  exact frames_inj (hspec h) (hspec h') he

/-- The slot has a key that tells its body, and a rule of ordinary texts. -/
abbrev OrdinarySlot : Option RuleKey × Rule → Prop :=
  Framed Selector.Simple (Declaration.Texts Ordinary) (AllChars Ordinary)

theorem ordinary_head {rule : Rule} (h : OrdinaryRule rule) : AllChars Ordinary rule.frame.1 := by
  cases h with
  | style _ hs => exact Selector.allChars_joinList (by decide) fun s hm => (hs s hm).2.1
  | atRule ha => exact ha

/-- One frame, one outline. -/
theorem outline_of_frame {slot other : Option RuleKey × Rule} (h : OrdinarySlot slot)
    (h' : OrdinarySlot other) (he : frame slot = frame other) : outline slot = outline other := by
  have hmixed : ∀ (ds : List Declaration) (body : RuleSet), (∀ d ∈ ds, d.Texts Ordinary) → body ≠ [] →
      (∀ s ∈ body, OrdinaryRule s.2) → Declaration.cssAll ds ≠ css body := fun ds body hd hne hb =>
    cssAll_ne_css (fun d hm => (hd d hm).mono fun _ hc => hc.unbraced) hne fun s hs => (hb s hs).unbraced
  obtain ⟨ss, ds, rfl, hne, hs, -, hd⟩ | ⟨rule, body, rfl, -, hne, hb⟩ := h.cases <;>
    obtain ⟨ss', ds', rfl, hne', hs', -, hd'⟩ | ⟨rule', body', rfl, -, hne', hb'⟩ := h'.cases
  · obtain ⟨hhead, hblock⟩ := Prod.mk.inj he
    have hlist := Selector.joinList_inj hne hne' (fun s hm => (hs s hm).2.2) (fun s hm => (hs' s hm).2.2) hhead
    show (some (RuleKey.shared (Declaration.cssAll ds)), Rule.style ss [] false) = _
    rw [hblock, hlist]
    rfl
  · exact absurd (Prod.mk.inj he).2 (hmixed ds body' hd hne' hb')
  · exact absurd (Prod.mk.inj he).2.symm (hmixed ds' body hd' hne hb)
  · obtain ⟨hrule, hbody⟩ := Prod.mk.inj he
    show (some (RuleKey.atRule rule (css body)), Rule.style [] [] false) = _
    rw [hrule, hbody]
    rfl

/-- One text, one outline. -/
theorem outline_of_css {rules others : RuleSet} (h : ∀ slot ∈ rules, OrdinarySlot slot)
    (h' : ∀ slot ∈ others, OrdinarySlot slot) (he : css rules = css others) :
    rules.map outline = others.map outline := by
  have hframes := frames_of_css (fun s hs => OrdinaryRule.unbraced (h s hs).all)
    (fun s hs => OrdinaryRule.unbraced (h' s hs).all) he
  clear he
  induction rules generalizing others with
  | nil => rw [List.map_eq_nil_iff.mp hframes.symm]
  | cons slot rest ih =>
    cases others with
    | nil => cases hframes
    | cons other rest' =>
      have hslot := h slot List.mem_cons_self
      have hother := h' other List.mem_cons_self
      obtain ⟨hrules, hrest⟩ := List.cons.inj hframes
      have hframe : frame slot = frame other := by
        rw [← hslot.frame_eq, ← hother.frame_eq]
        exact hrules
      rw [List.map_cons, List.map_cons, outline_of_frame hslot hother hframe,
        ih (fun s hs => h s (List.mem_cons_of_mem _ hs)) (fun s hs => h' s (List.mem_cons_of_mem _ hs)) hrest]

end RuleSet

end StyleEngine
