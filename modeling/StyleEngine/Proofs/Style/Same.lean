import StyleEngine.Proofs.Number.Equal
import StyleEngine.Proofs.Registry.Attempt

/-!
# The same description compiles to the same rules

Sameness of descriptions is coarser than identity: zeros differ in sign, and typed values are compared by
tag and text. It is still finer than what is compiled. Values that are the same are both falsy or neither,
and are written with one text or refused alike (`Value.css_of_same`); so are the declarations of a
description and of all below it (`Description.normalizeAt_of_same`).
-/

namespace StyleEngine

theorem toOption_map {ε α β : Type} (x : Except ε α) (f : α → β) : (x.map f).toOption = x.toOption.map f := by
  cases x <;> rfl

namespace Value

/-! ## Values -/

theorem toOption_cssAll_cons (v : Value) (rest : List Value) :
    (cssAll (v :: rest)).toOption = v.css.toOption.bind fun s => (cssAll rest).toOption.map (s :: ·) := by
  rw [cssAll]
  cases v.css with
  | error e => rfl
  | ok s => exact toOption_map _ _

/-- Typed values are compared with one another only. -/
theorem css_of_sameTyped {v w : Value} (h : sameTyped v w = true) :
    v.isFalsy = false ∧ w.isFalsy = false ∧ v.css.toOption = w.css.toOption := by
  have htyped : ∀ u : Value, u.tag?.isSome = true → u.isFalsy = false := by
    intro u hu
    cases u with
    | null | boolean _ | number _ | text _ | list _ => cases hu
    | color _ | function _ _ _ | custom _ _ => rfl
  unfold sameTyped at h
  split at h
  · next s t hv hw =>
    obtain ⟨-, hcss⟩ := Bool.and_eq_true_iff.mp h
    exact ⟨htyped v (by rw [hv]; rfl), htyped w (by rw [hw]; rfl), eq_of_beq hcss⟩
  · cases h

/-- A value other than a list is compared by itself. -/
theorem css_of_same_of_not_list {v w : Value} (hv : ∀ items, v ≠ list items) (h : v.same w = true) :
    v.isFalsy = w.isFalsy ∧ v.css.toOption = w.css.toOption := by
  unfold same at h
  split at h
  · exact ⟨rfl, rfl⟩
  · obtain rfl := eq_of_beq h
    exact ⟨rfl, rfl⟩
  · obtain ⟨hx, hy, hformat⟩ := Number.format_of_beq h
    exact ⟨hx.trans hy.symm, congrArg some hformat⟩
  · obtain rfl := eq_of_beq h
    exact ⟨rfl, rfl⟩
  · next items _ => exact absurd rfl (hv items)
  · obtain ⟨hleft, hright, hcss⟩ := css_of_sameTyped h
    exact ⟨hleft.trans hright.symm, hcss⟩

mutual

/-- Values that are the same are both falsy or neither, and are written with one text or refused alike. -/
theorem css_of_same (v w : Value) (h : v.same w = true) :
    v.isFalsy = w.isFalsy ∧ v.css.toOption = w.css.toOption := by
  cases v with
  | list items =>
    cases w with
    | list items' =>
      obtain ⟨hall, -⟩ := css_of_sameAll items items' h
      refine ⟨rfl, ?_⟩
      rw [css, css, toOption_map, toOption_map, hall]
    | null | boolean _ | number _ | text _ | color _ | function _ _ _ | custom _ _ => cases h
  | null | boolean _ | number _ | text _ | color _ | function _ _ _ | custom _ _ =>
    exact css_of_same_of_not_list nofun h

theorem css_of_sameAll (vs ws : List Value) (h : sameAll vs ws = true) :
    (cssAll vs).toOption = (cssAll ws).toOption ∧
      (cssAll (vs.filter (!·.isFalsy))).toOption = (cssAll (ws.filter (!·.isFalsy))).toOption := by
  cases vs with
  | nil =>
    cases ws with
    | nil => exact ⟨rfl, rfl⟩
    | cons w ws => cases h
  | cons v vs =>
    cases ws with
    | nil => cases h
    | cons w ws =>
      obtain ⟨hhead, htail⟩ := Bool.and_eq_true_iff.mp h
      obtain ⟨hfalsy, hcss⟩ := css_of_same v w hhead
      obtain ⟨hall, htruthy⟩ := css_of_sameAll vs ws htail
      constructor
      · rw [toOption_cssAll_cons, toOption_cssAll_cons, hcss, hall]
      · cases hw : w.isFalsy with
        | true =>
          rw [List.filter_cons_of_neg (by simp [hfalsy, hw]), List.filter_cons_of_neg (by simp [hw])]
          exact htruthy
        | false =>
          rw [List.filter_cons_of_pos (by simp [hfalsy, hw]), List.filter_cons_of_pos (by simp [hw]),
            toOption_cssAll_cons, toOption_cssAll_cons, hcss, htruthy]

end

theorem fallbacks_of_not_list {v : Value} (hv : ∀ items, v ≠ list items) : v.fallbacks = [v] := by
  cases v with
  | list items => exact absurd rfl (hv items)
  | null | boolean _ | number _ | text _ | color _ | function _ _ _ | custom _ _ => rfl

/-- What is declared one after the other is written with the same texts as well. -/
theorem fallbacks_of_same {v w : Value} (h : v.same w = true) :
    (cssAll v.fallbacks).toOption = (cssAll w.fallbacks).toOption := by
  cases v with
  | list items =>
    cases w with
    | list items' => exact (css_of_sameAll items items' h).2
    | null | boolean _ | number _ | text _ | color _ | function _ _ _ | custom _ _ => cases h
  | null | boolean _ | number _ | text _ | color _ | function _ _ _ | custom _ _ =>
    have hw : ∀ items, w ≠ list items := by
      rintro items rfl
      cases h
    rw [fallbacks_of_not_list hw]
    show (cssAll [_]).toOption = _
    rw [toOption_cssAll_cons, toOption_cssAll_cons, (css_of_same _ w h).2]

end Value

namespace Description

/-! ## Descriptions -/

theorem renderValues_eq_map (property : String) (vs : List Value) :
    renderValues property vs = (Value.cssAll vs).map (·.map (Declaration.mk property)) := by
  induction vs with
  | nil => rfl
  | cons v rest ih =>
    rw [renderValues, Value.cssAll, ih]
    cases v.css with
    | error e => rfl
    | ok s => cases Value.cssAll rest <;> rfl

theorem renderEntry_of_same (property : String) {v w : Value} (h : v.same w = true) :
    (renderEntry property v).toOption = (renderEntry property w).toOption := by
  rw [renderEntry, renderEntry, (Value.css_of_same v w h).1]
  split
  · rfl
  · rw [renderValues_eq_map, renderValues_eq_map, toOption_map, toOption_map, Value.fallbacks_of_same h]

theorem toOption_renderDeclarations_cons (property : String) (v : Value) (rest : List (String × Value)) :
    (renderDeclarations ((property, v) :: rest)).toOption =
      (renderEntry property v).toOption.bind fun ds => (renderDeclarations rest).toOption.map (ds ++ ·) := by
  rw [renderDeclarations]
  cases renderEntry property v with
  | error e => rfl
  | ok ds => exact toOption_map _ _

theorem renderDeclarations_of_same {ds es : List (String × Value)} (h : sameDeclarations ds es = true) :
    (renderDeclarations ds).toOption = (renderDeclarations es).toOption := by
  induction ds generalizing es with
  | nil =>
    cases es with
    | nil => rfl
    | cons e es => cases h
  | cons d ds ih =>
    cases es with
    | nil => cases h
    | cons e es =>
      obtain ⟨property, v⟩ := d
      obtain ⟨property', w⟩ := e
      simp only [sameDeclarations, Bool.and_eq_true] at h
      obtain ⟨⟨hproperty, hvalue⟩, hrest⟩ := h
      obtain rfl := eq_of_beq hproperty
      rw [toOption_renderDeclarations_cons, toOption_renderDeclarations_cons, renderEntry_of_same property hvalue,
        ih hrest]

theorem toOption_normalizeAll_cons (debug : Bool) (depth : Nat) (selector : String) (d : Description)
    (rest : List (String × Description)) :
    (normalizeAll debug depth ((selector, d) :: rest)).toOption =
      (normalizeAt debug depth d).toOption.bind fun style =>
        (normalizeAll debug depth rest).toOption.map ((selector, style) :: ·) := by
  rw [normalizeAll]
  cases normalizeAt debug depth d with
  | error e => rfl
  | ok style => exact toOption_map _ _

/-- What a description comes to, when it does not nest too deep. -/
theorem toOption_normalizeAt {debug : Bool} {depth : Nat} (hdepth : ¬ maxNesting < depth) (d : Description) :
    (normalizeAt debug depth d).toOption =
      (renderDeclarations d.declarations).toOption.bind fun declarations =>
        (normalizeAll debug (depth + 1) d.nested).toOption.map fun nested =>
          raisePriority d.priority
            { declarations, nested, unique := d.isUnique
              debugName? := if debug then d.shownName? else none } := by
  obtain ⟨declarations, nested, unique?, debugName?, priority?⟩ := d
  rw [normalizeAt, if_neg hdepth]
  cases renderDeclarations declarations with
  | error e => rfl
  | ok ds =>
    cases normalizeAll debug (depth + 1) nested with
    | error e => rfl
    | ok ns => rfl

mutual

theorem normalizeAt_of_same (debug : Bool) (depth : Nat) (d e : Description) (h : d.same e = true) :
    (normalizeAt debug depth d).toOption = (normalizeAt debug depth e).toOption := by
  cases d with
  | mk ds ns unique? debugName? priority? =>
    cases e with
    | mk ds' ns' unique?' debugName?' priority?' =>
      simp only [same, Bool.and_eq_true] at h
      obtain ⟨⟨⟨⟨hdeclarations, hnested⟩, hunique⟩, hname⟩, hpriority⟩ := h
      obtain rfl := eq_of_beq hunique
      obtain rfl := eq_of_beq hname
      obtain rfl := eq_of_beq hpriority
      by_cases hdepth : maxNesting < depth
      · rw [normalizeAt, normalizeAt, if_pos hdepth, if_pos hdepth]
      · rw [toOption_normalizeAt hdepth, toOption_normalizeAt hdepth, renderDeclarations_of_same hdeclarations,
          normalizeAll_of_sameNested debug (depth + 1) ns ns' hnested]
        rfl

theorem normalizeAll_of_sameNested (debug : Bool) (depth : Nat) (ns ns' : List (String × Description))
    (h : sameNested ns ns' = true) :
    (normalizeAll debug depth ns).toOption = (normalizeAll debug depth ns').toOption := by
  cases ns with
  | nil =>
    cases ns' with
    | nil => rfl
    | cons n ns' => cases h
  | cons n ns =>
    cases ns' with
    | nil => cases h
    | cons n' ns' =>
      cases n with
      | mk selector d =>
        cases n' with
        | mk selector' d' =>
          simp only [sameNested, Bool.and_eq_true] at h
          obtain ⟨⟨hselector, hchild⟩, hrest⟩ := h
          obtain rfl := eq_of_beq hselector
          rw [toOption_normalizeAll_cons, toOption_normalizeAll_cons, normalizeAt_of_same debug depth d d' hchild,
            normalizeAll_of_sameNested debug depth ns ns' hrest]

end

/-- Descriptions that are the same have one normal style, or none. -/
theorem normalize_of_same {d e : Description} (h : (d == e) = true) (debug : Bool) :
    (d.normalize debug).toOption = (e.normalize debug).toOption :=
  normalizeAt_of_same debug 0 d e h

end Description

namespace Registry

/-! ## Registrations -/

theorem toOption_flatDeclarations (kind : FlatRuleKind) (d : Description) :
    (flatDeclarations kind d).toOption = (d.normalize false).toOption.bind fun style =>
      if style.nested.isEmpty then some style.declarations else none := by
  rw [flatDeclarations]
  cases d.normalize false with
  | error e => rfl
  | ok style => cases h : style.nested <;> simp [h, Except.toOption]

theorem compileFrames_of_sameNested {fs gs : List (String × Description)}
    (h : Description.sameNested fs gs = true) : (compileFrames fs).toOption = (compileFrames gs).toOption := by
  have hcons : ∀ offset d rest, (compileFrames ((offset, d) :: rest)).toOption =
      (flatDeclarations .keyframes d).toOption.bind fun ds => (compileFrames rest).toOption.map fun frames =>
        if ds.isEmpty then frames else (offset, Declaration.sort ds) :: frames := by
    intro offset d rest
    rw [compileFrames]
    cases flatDeclarations .keyframes d with
    | error e => rfl
    | ok ds => exact toOption_map _ _
  induction fs generalizing gs with
  | nil =>
    cases gs with
    | nil => rfl
    | cons g gs => cases h
  | cons f fs ih =>
    cases gs with
    | nil => cases h
    | cons g gs =>
      obtain ⟨offset, d⟩ := f
      obtain ⟨offset', e⟩ := g
      simp only [Description.sameNested, Bool.and_eq_true] at h
      obtain ⟨⟨hoffset, hframe⟩, hrest⟩ := h
      obtain rfl := eq_of_beq hoffset
      rw [hcons, hcons, toOption_flatDeclarations, toOption_flatDeclarations,
        Description.normalize_of_same hframe, ih hrest]

/-- What is the same is registered alike, in every registry: either both registrations fail, or both return
the same name and leave the same rules and version. -/
theorem registration_of_same (r : Registry) (debug : Bool) :
    (∀ d e : Description, (d == e) = true →
      (r.registerStyle d debug).toOption = (r.registerStyle e debug).toOption ∧
        ∀ selector, (r.registerRule selector d).toOption = (r.registerRule selector e).toOption) ∧
    ∀ k l : Keyframes, (k == l) = true →
      (r.registerKeyframes k debug).toOption = (r.registerKeyframes l debug).toOption := by
  constructor
  · intro d e h
    constructor
    · rw [registerStyle_eq, registerStyle_eq, toOption_map, toOption_map, Description.normalize_of_same h]
    · intro selector
      rw [registerRule_eq, registerRule_eq, toOption_map, toOption_map, Description.normalize_of_same h]
  · intro k l h
    obtain ⟨hframes, hname⟩ := Bool.and_eq_true_iff.mp h
    have hshown : k.shownName? = l.shownName? := by
      rw [Keyframes.shownName?, Keyframes.shownName?, eq_of_beq hname]
    rw [registerKeyframes_eq, registerKeyframes_eq, toOption_map, toOption_map, compileFrames_of_sameNested hframes]
    simp only [framesName, hshown]

/-- Two zeros, and a color that is typed by its text. -/
def zeroStyle : Description :=
  { declarations := [("zIndex", .number 0.0)]
    nested := [("&:hover", { declarations := [("color", .color (.keyword "red"))] })] }

def negativeZeroStyle : Description :=
  { declarations := [("zIndex", .number (-0.0))]
    nested := [("&:hover", { declarations := [("color", .custom "color" (.ok "red"))] })] }

/-- A frame whose value is refused, with a reason that does not count. -/
def refusedFrame (reason : String) : Keyframes :=
  { frames := [("from", { declarations := [("top", .custom "length" (.error (.invalidValue "length" reason)))] })] }

theorem registration_of_same_zeros :
    (zeroStyle == negativeZeroStyle) = true ∧ zeroStyle.declarations.map (·.2.css.toOption) = [some "0"] ∧
      (registerStyle {} zeroStyle true).toOption = (registerStyle {} negativeZeroStyle true).toOption ∧
      (registerKeyframes {} (refusedFrame "no unit") true).toOption = none ∧
      (registerKeyframes {} (refusedFrame "no unit") true).toOption =
        (registerKeyframes {} (refusedFrame "negative") true).toOption := by
  have hzeros : (zeroStyle == negativeZeroStyle) = true := by decide
  have hrefused : (refusedFrame "no unit" == refusedFrame "negative") = true := by decide
  obtain ⟨hstyle, hkeyframes⟩ := registration_of_same {} true
  exact ⟨hzeros, by decide, (hstyle _ _ hzeros).1, rfl, hkeyframes _ _ hrefused⟩

end Registry

end StyleEngine
