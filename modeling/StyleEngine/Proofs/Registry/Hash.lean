import StyleEngine.Proofs.Registry.Attempt
import StyleEngine.Proofs.RuleSet.Rename
import StyleEngine.Proofs.Selector.Root

/-!
# What the text to hash tells

The text that names a style is its rules under `&`. What is emitted has the selector of the class in place
of every `&` (`flatten_under_class`). For a style that hides nothing from the text (`Transparent`) it tells
the rules under the class as well, as far as their keys and selectors go (`outline_compile_of_hashText`).
-/

namespace StyleEngine

/-- The text of the style tells its rules: below the root nothing is marked unique, a marked root
declares something, and no key that is a selector has a comma in it. -/
structure NormalStyle.Transparent (style : NormalStyle) : Prop where
  declares : style.unique = true → style.declarations ≠ []
  unmarked : ∀ e ∈ style.nested, e.2.Unmarked
  uncut : style.All (fun key => Selector.isAtRule key = false → AllChars (· ≠ ',') key) fun _ => True

/-- Every key and every declaration is made of ordinary characters. -/
abbrev NormalStyle.Ordinary : NormalStyle → Prop :=
  NormalStyle.All (AllChars StyleEngine.Ordinary) (Declaration.Texts StyleEngine.Ordinary)

theorem lower_ordinary : ∀ c, Ordinary c → Ordinary c.toLower :=
  lower_of_letters fun c hlo hhi hm => by
    rcases List.mem_cons.mp hm with rfl | hm
    · exact absurd hhi (by decide)
    rcases List.mem_cons.mp hm with rfl | hm
    · exact absurd hhi (by decide)
    rcases List.mem_cons.mp hm with rfl | hm
    · exact absurd hlo (by decide)
    · obtain rfl := List.mem_singleton.mp hm
      exact absurd hlo (by decide)

theorem Description.Texts.ordinary_normalize {d : Description} (ht : d.Texts Ordinary) {debug : Bool}
    {style : NormalStyle} (h : d.normalize debug = .ok style) : style.Ordinary :=
  ht.all_normalize (by decide) (by decide) lower_ordinary h

namespace NormalStyle

/-- The nodes of a transparent style under `&`, the root aside, are legible. -/
theorem Transparent.legible {style : NormalStyle} (ht : style.Transparent) (ho : style.Ordinary) :
    ∀ node ∈ ({ style with unique := false } : NormalStyle).flatten Registry.hashRoot, node.Legible := by
  obtain ⟨-, hu, hk⟩ := ht
  obtain ⟨declarations, nested, unique, debugName?⟩ := style
  have hall : (⟨declarations, nested, false, debugName?⟩ : NormalStyle).All
      (fun key => AllChars StyleEngine.Ordinary key ∧
        (Selector.isAtRule key = false → AllChars (· ≠ ',') key))
      (fun d => d.Texts StyleEngine.Ordinary ∧ True) := by
    obtain ⟨own, keys, children⟩ := ho.and hk
    exact .mk own keys children
  have hamp : Selector.Solid Registry.hashRoot.toList := Selector.solid_amp
  have hroot : Within Registry.hashRoot Registry.hashRoot ∧
      AllChars StyleEngine.Ordinary Registry.hashRoot ∧ AllChars (· ≠ ',') Registry.hashRoot :=
    ⟨within_refl _, by decide, by decide⟩
  have hflat := hall.flatten
    (S := fun s => Within Registry.hashRoot s ∧ AllChars StyleEngine.Ordinary s ∧ AllChars (· ≠ ',') s)
    (A := AllChars StyleEngine.Ordinary)
    (fun parent key hkey hp hk => ⟨Selector.within_compose hamp hp.1 key,
      Selector.allChars_compose (by decide) (by decide) hp.2.1 hk.1,
      Selector.allChars_compose_uncut hp.2.2 (hk.2 hkey)⟩)
    (fun key _ hk => hk.1) hroot
  have hmarks : (⟨declarations, nested, false, debugName?⟩ : NormalStyle).Unmarked := .mk hu
  exact fun node hn => ⟨(hflat node hn).mono (fun s hs => ⟨hamp.ne_empty_of_within hs.1, hs.2⟩) (fun _ hd => hd.1)
    (fun _ ha => ha), hmarks.flatten _ node hn⟩

end NormalStyle

namespace Registry

/-- No text of legible nodes begins with the marker of a unique root. -/
theorem css_ne_marked {nodes : List FlatNode} (h : ∀ node ∈ nodes, node.Legible) (text : String) :
    RuleSet.css (RuleSet.ofNodes .byDeclarations nodes) ≠ hashMarker true ++ text := by
  intro he
  have hslots := RuleSet.ordinarySlot_ofNodes h
  rw [← String.toList_inj, RuleSet.toList_css_of_all (fun slot hs => (hslots slot hs).all) fun _ hs => hs.1] at he
  have hsemicolon : ';' ∈ (hashMarker true).toList := by decide
  have hopen : '{' ∉ (hashMarker true).toList := by decide
  cases hr : RuleSet.ofNodes .byDeclarations nodes with
  | nil =>
    rw [hr, List.map_nil, List.flatMap_nil, String.toList_append] at he
    exact absurd (List.append_eq_nil_iff.mp he.symm).1 (by decide)
  | cons slot rest =>
    have hhead : ';' ∉ slot.2.frame.1.toList := fun hm =>
      RuleSet.ordinary_head (hslots slot (hr ▸ List.mem_cons_self)).all _ hm (by simp)
    rw [hr, List.map_cons, List.flatMap_cons, toList_braced, List.append_assoc, String.toList_append] at he
    -- the first brace comes after the marker, so the head has the semicolon of the marker in it
    rcases List.append_eq_append_iff.mp he with ⟨e, hmarker, hrest⟩ | ⟨e, hmarker, -⟩
    · cases e with
      | nil => exact hhead (by rw [List.append_nil] at hmarker; exact hmarker ▸ hsemicolon)
      | cons c e =>
        obtain ⟨rfl, -⟩ := List.cons.inj hrest
        exact hopen (hmarker ▸ List.mem_append_right _ List.mem_cons_self)
    · exact hhead (hmarker ▸ List.mem_append_left _ hsemicolon)

theorem substitute_ne_empty {root : String} (hr : Selector.Solid root.toList) {s : String} (hs : s ≠ "") :
    Selector.substitute root s ≠ "" := by
  intro he
  rw [← String.toList_inj, Selector.toList_substitute] at he
  obtain ⟨c, rest, hc⟩ := List.exists_cons_of_ne_nil fun hnil => hs (String.toList_eq_nil_iff.mp hnil)
  obtain ⟨d, ds, hd, -⟩ := hr.head
  rw [hc, hd, Selector.fill, List.flatMap_cons] at he
  split at he
  · cases he
  · cases he

theorem substitute_hashRoot (root : String) : Selector.substitute root hashRoot = root := by
  rw [← String.toList_inj, Selector.toList_substitute]
  simp [hashRoot, Selector.fill]

theorem flatten_hashRoot {root : String} (hr : Selector.Solid root.toList) (style : NormalStyle) :
    style.flatten root = FlatNode.renameAll (Selector.substitute root) (style.flatten hashRoot) := by
  rw [← NormalStyle.flatten_substitute hr, substitute_hashRoot]

theorem flattenNested_hashRoot {root : String} (hr : Selector.Solid root.toList)
    (nested : List (String × NormalStyle)) :
    NormalStyle.flattenNested root nested =
      FlatNode.renameAll (Selector.substitute root) (NormalStyle.flattenNested hashRoot nested) := by
  rw [← NormalStyle.flattenNested_substitute hr, substitute_hashRoot]

theorem solid_of_registerStyle {r r' : Registry} {d : Description} {debug : Bool} {name : String}
    (h : r.registerStyle d debug = .ok (name, r')) : Selector.Solid (Selector.ofClass name).toList := by
  obtain ⟨style, -, rfl, -⟩ := exists_style_of_registerStyle h
  exact solid_root style

/-- What is emitted under a class is what was hashed under `&`: any style has the same nodes under any
class that is generated, with the selector of the class in place of every `&` in the selectors. At-rules,
declarations, flags and order are the same, whatever stands in the debug name. -/
theorem flatten_under_class {r r' : Registry} {d : Description} {debug : Bool} {name : String}
    (h : r.registerStyle d debug = .ok (name, r')) (style : NormalStyle) :
    style.flatten (Selector.ofClass name) =
      FlatNode.renameAll (Selector.substitute (Selector.ofClass name)) (style.flatten hashRoot) :=
  flatten_hashRoot (solid_of_registerStyle h) style

/-- A description with a comma, a quote, a bracket and `&` in its name, and with `&` inside quotes, behind
a backslash and below an at-rule. -/
def quoted : Description where
  nested := [("&:not(\"&\"), \\& p", { declarations := [("color", .text "red")] }),
    ("@media print", { nested := [("b &", { declarations := [("color", .text "red")] })] })]
  debugName? := some "a,\"(&"

def quotedStyle : NormalStyle where
  nested := [("&:not(\"&\"), \\& p", { declarations := [⟨"color", "red"⟩] }),
    ("@media print", { nested := [("b &", { declarations := [⟨"color", "red"⟩] })] })]
  debugName? := some "a,\"(&"

theorem flatten_under_class_quoted :
    registerStyle {} quoted true = .ok (className quotedStyle, step {} (.style quoted true)) ∧
    Selector.ofClass (className quotedStyle) = ".a\\,\\\"\\(\\&_fqfxye2" ∧
    quotedStyle.flatten hashRoot =
      [.rule "&" [] false, .rule "&:not(\"&\"),\\& p" [⟨"color", "red"⟩] false,
        .atRule "@media print" [.rule "&" [] false, .rule "b &" [⟨"color", "red"⟩] false]] ∧
    quotedStyle.flatten (Selector.ofClass (className quotedStyle)) =
      FlatNode.renameAll (Selector.substitute (Selector.ofClass (className quotedStyle)))
        (quotedStyle.flatten hashRoot) := by
  have h : registerStyle {} quoted true = .ok (className quotedStyle, step {} (.style quoted true)) := rfl
  exact ⟨h, by decide +kernel, rfl, flatten_under_class h quotedStyle⟩

variable {s₁ s₂ : NormalStyle}

/-- The text to hash tells whether the root is marked, and the text of the rules. -/
theorem unique_eq_of_hashText (h₁ : s₁.Transparent) (h₂ : s₂.Transparent) (o₁ : s₁.Ordinary)
    (o₂ : s₂.Ordinary) (htext : hashText s₁ = hashText s₂) :
    s₁.unique = s₂.unique ∧
      RuleSet.css (RuleSet.ofNodes .byDeclarations (s₁.flatten hashRoot)) =
        RuleSet.css (RuleSet.ofNodes .byDeclarations (s₂.flatten hashRoot)) := by
  have l₁ := h₁.legible o₁
  have l₂ := h₂.legible o₂
  obtain ⟨ds₁, nested₁, unique₁, name₁⟩ := s₁
  obtain ⟨ds₂, nested₂, unique₂, name₂⟩ := s₂
  rw [hashText, hashText] at htext
  cases unique₁ with
  | true =>
    cases unique₂ with
    | true => exact ⟨rfl, by simpa [← String.toList_inj] using htext⟩
    | false =>
      have hplain : ∀ text : String, hashMarker false ++ text = text := fun text => by simp [hashMarker]
      rw [hplain] at htext
      exact absurd htext.symm (css_ne_marked l₂ _)
  | false =>
    have hplain : ∀ text : String, hashMarker false ++ text = text := fun text => by simp [hashMarker]
    rw [hplain] at htext
    cases unique₂ with
    | true => exact absurd htext (css_ne_marked l₁ _)
    | false => exact ⟨rfl, by rw [htext, hplain]⟩

/-- The rules of a style whose root is marked: that of the root, then those below it. -/
theorem ofNodes_marked {declarations : List Declaration} {nested : List (String × NormalStyle)}
    {name? : Option String} (hne : declarations ≠ []) (hu : ∀ e ∈ nested, e.2.Unmarked) (root : String) :
    RuleSet.ofNodes .byDeclarations ((⟨declarations, nested, true, name?⟩ : NormalStyle).flatten root) =
      (some (.unique root (Declaration.cssAll (Declaration.sort declarations))),
        .style [root] (Declaration.sort declarations) true) ::
      RuleSet.ofNodes .byDeclarations (NormalStyle.flattenNested root nested) := by
  have hstyle : (⟨[], nested, false, none⟩ : NormalStyle).Unmarked := .mk hu
  unfold NormalStyle.flatten
  exact RuleSet.ofNodes_cons_unique hne fun node hn =>
    hstyle.flatten root node (by rw [NormalStyle.flatten]; exact List.mem_cons_of_mem _ hn)

/-- The text of a marked root rule and the rules below it. -/
theorem toList_css_marked {declarations : List Declaration} (hne : declarations ≠ [])
    (rest : RuleSet) (key? : Option RuleKey) :
    (RuleSet.css ((key?, .style [hashRoot] declarations true) :: rest)).toList =
      hashRoot.toList ++ '{' :: ((Declaration.cssAll declarations).toList ++ '}' :: (RuleSet.css rest).toList) := by
  have hroot : ∃ s ∈ [hashRoot], s ≠ "" := ⟨hashRoot, List.mem_singleton_self _, by decide⟩
  rw [RuleSet.css_cons rfl, Rule.css_style hne hroot, String.toList_append, toList_braced]
  simp [Selector.joinList]

/-- Under any class, transparent styles of one text to hash compile to rules of one outline. -/
theorem outline_compile_of_hashText (h₁ : s₁.Transparent) (h₂ : s₂.Transparent) (o₁ : s₁.Ordinary)
    (o₂ : s₂.Ordinary) (htext : hashText s₁ = hashText s₂) {name : String}
    (hr : Selector.Solid (Selector.ofClass name).toList) :
    (compile s₁ name).map RuleSet.outline = (compile s₂ name).map RuleSet.outline := by
  have l₁ := h₁.legible o₁
  have l₂ := h₂.legible o₂
  have hσ : ∀ s, Selector.Simple s → Selector.substitute (Selector.ofClass name) s ≠ "" :=
    fun s hs => substitute_ne_empty hr hs.1
  obtain ⟨hunique, hcss⟩ := unique_eq_of_hashText h₁ h₂ o₁ o₂ htext
  obtain ⟨ds₁, nested₁, unique₁, name₁⟩ := s₁
  obtain ⟨ds₂, nested₂, unique₂, name₂⟩ := s₂
  obtain rfl : unique₁ = unique₂ := hunique
  cases unique₁ with
  | false =>
    rw [compile, compile, flatten_hashRoot hr, flatten_hashRoot hr ⟨ds₂, nested₂, false, name₂⟩]
    exact RuleSet.outline_renameAll_of_css hσ l₁ l₂ hcss
  | true =>
    have hne₁ : ds₁ ≠ [] := h₁.declares rfl
    have hne₂ : ds₂ ≠ [] := h₂.declares rfl
    rw [ofNodes_marked hne₁ h₁.unmarked, ofNodes_marked hne₂ h₂.unmarked] at hcss
    have hblock : ∀ {ds : List Declaration}, (∀ d ∈ ds, d.Texts Ordinary) →
        Balanced (Declaration.cssAll (Declaration.sort ds)).toList := fun {ds} hd =>
      .flat (RuleSet.unbraced_cssAll fun d hm =>
        (hd d ((Declaration.sort_perm ds).mem_iff.mp hm)).mono fun _ hc => hc.unbraced)
    have hown₁ : ∀ d ∈ ds₁, d.Texts Ordinary := by
      obtain ⟨own, -, -⟩ := o₁
      exact own
    have hown₂ : ∀ d ∈ ds₂, d.Texts Ordinary := by
      obtain ⟨own, -, -⟩ := o₂
      exact own
    rw [← String.toList_inj, toList_css_marked (Declaration.sort_ne_nil hne₁),
      toList_css_marked (Declaration.sort_ne_nil hne₂)] at hcss
    have hroot : AllChars Unbraced hashRoot := by decide
    obtain ⟨-, hblocks, hrest⟩ := head_body_rest_inj hroot hroot (hblock hown₁) (hblock hown₂) hcss
    have hbelow := RuleSet.outline_renameAll_of_css hσ (fun node hn => l₁ node (List.mem_cons_of_mem _ hn))
      (fun node hn => l₂ node (List.mem_cons_of_mem _ hn)) (String.toList_inj.mp hrest)
    rw [compile, compile, ofNodes_marked hne₁ h₁.unmarked, ofNodes_marked hne₂ h₂.unmarked, List.map_cons,
      List.map_cons, String.toList_inj.mp hblocks, flattenNested_hashRoot hr, flattenNested_hashRoot hr, hbelow]
    rfl

end Registry

end StyleEngine
