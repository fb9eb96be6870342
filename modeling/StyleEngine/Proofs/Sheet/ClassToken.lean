import StyleEngine.Proofs.Keyed.Storing
import StyleEngine.Proofs.Registry.Kept
import StyleEngine.Proofs.Sheet.Effect
import StyleEngine.Proofs.Style.Anonymous
import StyleEngine.Proofs.Text.Tokens

/-!
# Class names in a class attribute

A class name is returned as it is, without escapes. It is never empty, and its hash has no whitespace, but a
debug name is put in front of it unchanged: in debug mode a debug name with whitespace makes several tokens
of one name (`classes_read_back_iff`).
-/

namespace StyleEngine

namespace Registry

variable {r r' : Registry} {d : Description} {debug : Bool} {name : String}

/-- A class name that some registration returns. -/
def IsClass (name : String) : Prop :=
  ∃ (r : Registry) (d : Description) (debug : Bool) (r' : Registry), r.registerStyle d debug = .ok (name, r')

theorem spaceless_hash (s : String) : Text.Spaceless (Text.hash s) := Text.allChars_hash (by decide) s

theorem spaceless_generatedName_iff {debugName? : Option String} {hash : String} (hhash : Text.Spaceless hash) :
    Text.Spaceless (generatedName debugName? hash) ↔ ∀ shown, debugName? = some shown → Text.Spaceless shown := by
  have hf : Text.Spaceless ("f" ++ hash) := AllChars.append (by decide) hhash
  cases debugName? with
  | none => exact ⟨fun _ => nofun, fun _ => hf⟩
  | some name =>
    have hchars : (generatedName (some name) hash).toList = name.toList ++ '_' :: ("f" ++ hash).toList := by
      simp [generatedName]
    rw [Text.Spaceless, AllChars, hchars]
    constructor
    · rintro h shown ⟨⟩ c hc
      exact h c (List.mem_append_left _ hc)
    · intro h c hc
      rcases List.mem_append.mp hc with hc | hc
      · exact h name rfl c hc
      · rcases List.mem_cons.mp hc with rfl | hc
        · rfl
        · exact hf c hc

theorem generatedName_ne_blank (debugName? : Option String) (hash : String) :
    Text.tokens (generatedName debugName? hash) ≠ [] := by
  obtain ⟨front, hfront⟩ := toList_generatedName debugName? hash
  have hmem : 'f' ∈ (generatedName debugName? hash).toList := hfront ▸ List.mem_append_right _ List.mem_cons_self
  exact Text.tokens_ne_nil hmem (by decide)

theorem generatedName_of_registerStyle (h : r.registerStyle d debug = .ok (name, r')) :
    ∃ text, name = generatedName (if debug then d.shownName? else none) (Text.hash text) := by
  obtain ⟨style, hstyle, rfl, -⟩ := exists_style_of_registerStyle h
  refine ⟨hashText style, ?_⟩
  rw [← Description.debugName?_of_normalize hstyle]
  rfl

theorem tokens_ne_nil_of_isClass (h : IsClass name) : Text.tokens name ≠ [] := by
  obtain ⟨r, d, debug, r', h⟩ := h
  obtain ⟨text, rfl⟩ := generatedName_of_registerStyle h
  exact generatedName_ne_blank _ _

/-- Only a debug name that shows can bring whitespace into a class name. -/
theorem spaceless_registerStyle_iff (h : r.registerStyle d debug = .ok (name, r')) :
    Text.Spaceless name ↔ (debug = true → ∀ shown, d.shownName? = some shown → Text.Spaceless shown) := by
  obtain ⟨text, rfl⟩ := generatedName_of_registerStyle h
  rw [spaceless_generatedName_iff (spaceless_hash text)]
  cases debug with
  | false => exact ⟨fun _ => nofun, fun _ _ => nofun⟩
  | true => exact ⟨fun h _ => h, fun h => h rfl⟩

end Registry

/-! ## Named styles -/

/-- A single style is shown by the name that it is given. -/
theorem Description.shownName?_extend_named (d : Description) (name : String) :
    (Description.extend [some (d.withDebugName name)]).shownName? = (some name).filter (!·.isEmpty) := by
  show (((some name).filter (!·.isEmpty)).or none).filter (!·.isEmpty) = _
  cases name.isEmpty <;> simp

/-- A class name, and the style name that shows in it if `debug` is on. -/
def Registry.NamedClass (debug : Bool) (entry : String × String) : Prop :=
  IsClass entry.2 ∧ (Text.Spaceless entry.2 ↔ (debug = true → Text.Spaceless entry.1))

namespace Sheet

variable {s : Sheet} {debug : Bool}

theorem namedClass_of_style {d : Description} {name c : String} {e : Effect}
    (h : s.styleEffect debug [some (d.withDebugName name)] = (.ok (.name c), e)) :
    Registry.NamedClass (s.debugMode debug) (name, c) := by
  unfold styleEffect at h
  cases hr : s.registry.registerStyle (Description.extend [some (d.withDebugName name)]) (s.debugMode debug) with
  | error e =>
    rw [hr] at h
    cases h
  | ok result =>
    obtain ⟨c', r'⟩ := result
    rw [hr] at h
    cases (Prod.mk.inj h).1
    refine ⟨⟨_, _, _, _, hr⟩, ?_⟩
    rw [Registry.spaceless_registerStyle_iff hr, Description.shownName?_extend_named]
    cases hempty : name.isEmpty with
    | true =>
      -- an empty name is not shown, and has no whitespace
      obtain rfl : name = "" := by simpa using hempty
      exact ⟨fun _ _ _ hc => absurd hc List.not_mem_nil, fun _ _ => nofun⟩
    | false =>
      rw [Option.filter_some, hempty]
      exact ⟨fun h hdebug => h hdebug name rfl, fun h hdebug _ hshown => Option.some.inj hshown ▸ h hdebug⟩

theorem style_ne_names (ds : List (Option Description)) (cs : List (String × String)) :
    (s.styleEffect debug ds).1 ≠ .ok (.names cs) := by
  unfold styleEffect
  cases s.registry.registerStyle (Description.extend ds) (s.debugMode debug) <;> nofun

theorem debugMode_of_style {ds : List (Option Description)} {answer : Except StyleError Answer} {e : Effect}
    (h : s.styleEffect debug ds = (answer, e)) : e.sheet.debugMode debug = s.debugMode debug := by
  have hfollows : Effect.Follows (fun _ => False) s (s.styleEffect debug ds).2 := .registerEffect s _
  rw [h] at hfollows
  rw [debugMode, debugMode, hfollows.debug]

theorem namedClass_of_stylesheet {named : List (String × Description)} {classes cs : List (String × String)}
    (hclasses : ∀ entry ∈ classes, Registry.NamedClass (s.debugMode debug) entry)
    (h : (s.stylesheetEffect debug classes named).1 = .ok (.names cs)) :
    ∀ entry ∈ cs, Registry.NamedClass (s.debugMode debug) entry := by
  induction named generalizing s classes with
  | nil =>
    cases h
    exact hclasses
  | cons first rest ih =>
    obtain ⟨name, d⟩ := first
    unfold stylesheetEffect at h
    split at h
    · next c e he =>
      rw [← debugMode_of_style he] at hclasses ⊢
      refine ih (fun entry hentry => ?_) h
      rcases Keyed.mem_put hentry with rfl | hentry
      · rw [debugMode_of_style he]
        exact namedClass_of_style he
      · exact hclasses entry hentry
    · exact absurd h (style_ne_names _ cs)

end Sheet

namespace World

theorem tokens_classes {names : List String} (h : ∀ name ∈ names, name ≠ "") :
    Text.tokens (classes (names.map some)) = names.flatMap Text.tokens := by
  have hpresent : (names.map some).filterMap id = names := by simp
  have hnonempty : names.filter (!·.isEmpty) = names := List.filter_eq_self.mpr (by simpa using h)
  rw [classes, hpresent, hnonempty, Text.tokens_intercalate]

/-- Class names in a class attribute. A name that is returned is never empty, and it is a single token unless
debug mode is on and the debug name that shows has whitespace. So names that are joined are read back as they
were exactly when none has whitespace. The names of a stylesheet are such names, with the caller's style name
as the debug name. -/
theorem classes_read_back_iff (r : Registry) (d : Description) (debug : Bool) (names : List String) (w : World)
    (handle : Nat) (named : List (String × Description)) :
    (∀ name r', r.registerStyle d debug = .ok (name, r') → name ≠ "" ∧
      (Text.Spaceless name ↔ (debug = true → ∀ shown, d.shownName? = some shown → Text.Spaceless shown))) ∧
    ((∀ name ∈ names, Registry.IsClass name) →
      (Text.tokens (classes (names.map some)) = names ↔ ∀ name ∈ names, Text.Spaceless name)) ∧
    ∀ id s cs w', w.sheetOf? handle = some id → w.sheets[id]? = some s →
      w.call handle (.stylesheet named) = (.ok (.names cs), w') →
      ∀ entry ∈ cs, Registry.NamedClass (w.debugMode s) entry := by
  refine ⟨fun name r' h => ?_, fun hnames => ?_, fun id s cs w' hh hs h => ?_⟩
  · have hne := Registry.tokens_ne_nil_of_isClass ⟨r, d, debug, r', h⟩
    exact ⟨fun hempty => hne (hempty ▸ rfl), Registry.spaceless_registerStyle_iff h⟩
  · have hne := fun name hname => Registry.tokens_ne_nil_of_isClass (hnames name hname)
    rw [tokens_classes fun name hname hempty => hne name hname (hempty ▸ rfl)]
    exact Text.flatMap_tokens_eq_self_iff hne
  · rw [call_eq_apply hh hs] at h
    exact Sheet.namedClass_of_stylesheet (fun _ he => absurd he List.not_mem_nil) (Prod.mk.inj h).1

/-- The style of `red` under a debug name. -/
def namedRed (name : String) : NormalStyle := { Registry.redStyle with debugName? := some name }

def buttonClass : String := "my button_f5cwk4x"
def alertClass : String := "alert_f5cwk4x"

theorem className_button : Registry.className (namedRed "my button") = buttonClass := by decide +kernel
theorem className_alert : Registry.className (namedRed "alert") = alertClass := by decide +kernel

theorem register_button :
    ∃ r, Registry.registerStyle {} (Registry.red.withDebugName "my button") true = .ok (buttonClass, r) := by
  rw [← className_button]
  exact ⟨_, rfl⟩

theorem register_alert :
    ∃ r, Registry.registerStyle {} (Registry.red.withDebugName "alert") true = .ok (alertClass, r) := by
  rw [← className_alert]
  exact ⟨_, rfl⟩

theorem button_is_two_tokens :
    (∃ r, Registry.registerStyle {} (Registry.red.withDebugName "my button") true = .ok (buttonClass, r)) ∧
      Text.tokens (classes [some buttonClass]) = ["my", "button_f5cwk4x"] :=
  ⟨register_button, by decide +kernel⟩

/-- A sheet in debug mode. -/
def debugSheets : World := start [{ debug? := some true }] 0

def buttons : List (String × Description) := [("alert", Registry.red), ("my button", Registry.red)]

def buttonClasses : List (String × String) := [("alert", alertClass), ("my button", buttonClass)]

theorem call_buttons : ∃ w', debugSheets.call 0 (.stylesheet buttons) = (.ok (.names buttonClasses), w') := by
  rw [buttonClasses, ← className_alert, ← className_button]
  exact ⟨_, rfl⟩

theorem classes_read_back_iff_buttons :
    (buttonClass ≠ "" ∧ ¬ Text.Spaceless buttonClass) ∧
    Text.tokens (classes ([alertClass, alertClass].map some)) = [alertClass, alertClass] ∧
    (∃ w', debugSheets.call 0 (.stylesheet buttons) = (.ok (.names buttonClasses), w')) ∧
    ∀ entry ∈ buttonClasses, Registry.NamedClass true entry := by
  obtain ⟨hname, hnames, hsheet⟩ := classes_read_back_iff {} (Registry.red.withDebugName "my button") true
    [alertClass, alertClass] debugSheets 0 buttons
  obtain ⟨r, hbutton⟩ := register_button
  obtain ⟨r', halert⟩ := register_alert
  obtain ⟨w', hcall⟩ := call_buttons
  obtain ⟨hne, hspaceless⟩ := hname _ _ hbutton
  have hshown : ¬ Text.Spaceless buttonClass := fun h =>
    absurd (hspaceless.mp h rfl "my button" rfl) (by decide)
  have hclass : ∀ name ∈ [alertClass, alertClass], Registry.IsClass name := by
    intro name hmem
    obtain rfl : name = alertClass := by simpa using hmem
    exact ⟨_, _, _, _, halert⟩
  have hentries := hsheet 0 (.ofConfig { debug? := some true }) _ w' rfl rfl hcall
  exact ⟨⟨hne, hshown⟩, (hnames hclass).mpr (by decide), ⟨w', hcall⟩, hentries⟩

end World

end StyleEngine
