import StyleEngine.Proofs.Registry.Attempt

/-!
# Names without the debug name

Debug mode is known to normalizing at every level, and a debug name is kept wherever it stands. What is
compiled does not look at it: outside debug mode a description has the same normal style with the names
left out (`normalizeAt_anonymous`), and such a style has the same rules and the same text to hash. So
debug mode puts a prefix in front of a name and does nothing else (`debug_mode_prefixes_names`).
-/

namespace StyleEngine

namespace NormalStyle

mutual

/-- The style without debug names, at any depth. -/
def anonymous : NormalStyle → NormalStyle
  | ⟨declarations, nested, unique, _⟩ => ⟨declarations, anonymousAll nested, unique, none⟩

def anonymousAll : List (String × NormalStyle) → List (String × NormalStyle)
  | [] => []
  | (key, child) :: rest => (key, child.anonymous) :: anonymousAll rest

end

@[simp] theorem debugName?_anonymous (style : NormalStyle) : style.anonymous.debugName? = none := by
  cases style
  rfl

@[simp] theorem unique_anonymous (style : NormalStyle) : style.anonymous.unique = style.unique := by
  cases style
  rfl

mutual

/-- Flattening does not look at debug names. -/
theorem flatten_anonymous (root : String) :
    ∀ style : NormalStyle, style.anonymous.flatten root = style.flatten root
  | ⟨declarations, nested, unique, _⟩ => by
    rw [anonymous, flatten, flatten, flattenNested_anonymous root nested]

theorem flattenNested_anonymous (root : String) :
    ∀ nested : List (String × NormalStyle), flattenNested root (anonymousAll nested) = flattenNested root nested
  | [] => rfl
  | (key, child) :: rest => by
    rw [anonymousAll, flattenNested, flattenNested, flattenNested_anonymous root rest,
      flatten_anonymous root child, flatten_anonymous _ child]

end

end NormalStyle

namespace Description

open NormalStyle

/-- A priority moves the debug name outside and leaves no other. -/
theorem anonymous_raisePriority (priority : Nat) (style : NormalStyle) :
    (raisePriority priority style).anonymous = raisePriority priority style.anonymous := by
  obtain ⟨declarations, nested, unique, debugName?⟩ := style
  unfold raisePriority
  split
  · rfl
  · rfl

theorem debugName?_raisePriority (priority : Nat) (style : NormalStyle) :
    (raisePriority priority style).debugName? = style.debugName? := by
  unfold raisePriority
  split <;> rfl

mutual

/-- Outside debug mode a description fails alike, or has the same style without debug names. -/
theorem normalizeAt_anonymous (debug : Bool) (depth : Nat) :
    ∀ d : Description, d.normalizeAt false depth = (d.normalizeAt debug depth).map anonymous
  | ⟨declarations, nested, unique?, debugName?, priority?⟩ => by
    rw [normalizeAt, normalizeAt, normalizeAll_anonymous debug (depth + 1) nested]
    split
    · rfl
    cases renderDeclarations declarations with
    | error e => rfl
    | ok ds =>
      cases normalizeAll debug (depth + 1) nested with
      | error e => rfl
      | ok styles =>
        refine congrArg Except.ok ?_
        rw [anonymous_raisePriority]
        rfl

theorem normalizeAll_anonymous (debug : Bool) (depth : Nat) :
    ∀ ds : List (String × Description),
      normalizeAll false depth ds = (normalizeAll debug depth ds).map anonymousAll
  | [] => rfl
  | (key, d) :: rest => by
    rw [normalizeAll, normalizeAll, normalizeAt_anonymous debug depth d, normalizeAll_anonymous debug depth rest]
    cases d.normalizeAt debug depth with
    | error e => rfl
    | ok style => cases normalizeAll debug depth rest <;> rfl

end

/-- The debug name of a style is that of its own description, whatever the children are named. -/
theorem debugName?_of_normalize {d : Description} {debug : Bool} {style : NormalStyle}
    (h : d.normalize debug = .ok style) : style.debugName? = if debug then d.shownName? else none := by
  obtain ⟨declarations, nested, unique?, debugName?, priority?⟩ := d
  rw [normalize, normalizeAt, if_neg (by decide)] at h
  split at h
  · cases h
  split at h
  · cases h
  obtain rfl := Except.ok.inj h
  exact debugName?_raisePriority _ _

end Description

namespace Registry

/-- The name behind a debug name, if there is one. -/
def prefixed (debugName? : Option String) (name : String) : String :=
  match debugName? with
  | some debugName => debugName ++ "_" ++ name
  | none => name

theorem generatedName_eq_prefixed (debugName? : Option String) (hash : String) :
    generatedName debugName? hash = prefixed debugName? (generatedName none hash) := by
  cases debugName? with
  | none => rfl
  | some name => simp [generatedName, prefixed, String.append_assoc, ← String.toList_inj]

theorem hashText_anonymous (style : NormalStyle) : hashText style.anonymous = hashText style := by
  rw [hashText, hashText, NormalStyle.unique_anonymous, NormalStyle.flatten_anonymous]

/-- The class of a style is that of the anonymous style behind its debug name. -/
theorem className_anonymous (style : NormalStyle) :
    className style = prefixed style.debugName? (className style.anonymous) := by
  rw [className, className, NormalStyle.debugName?_anonymous, hashText_anonymous, generatedName_eq_prefixed]

/-- In debug mode a description and keyframes fail as they do outside it, or are returned under the same
name behind their own debug name, whatever registries they come to and whatever is named below them. -/
theorem debug_mode_prefixes_names (r r' : Registry) :
    (∀ d : Description, (r.registerStyle d true).map Prod.fst =
      ((r'.registerStyle d false).map Prod.fst).map (prefixed d.shownName?)) ∧
    ∀ k : Keyframes, (r.registerKeyframes k true).map Prod.fst =
      ((r'.registerKeyframes k false).map Prod.fst).map (prefixed k.shownName?) := by
  constructor
  · intro d
    have hplain : d.normalize false = (d.normalize true).map NormalStyle.anonymous :=
      Description.normalizeAt_anonymous true 0 d
    rw [registerStyle_eq, registerStyle_eq, hplain]
    cases h : d.normalize true with
    | error e => rfl
    | ok style =>
      have hname : style.debugName? = d.shownName? := Description.debugName?_of_normalize h
      exact congrArg Except.ok (hname ▸ className_anonymous style)
  · intro k
    rw [registerKeyframes_eq, registerKeyframes_eq]
    cases compileFrames k.frames with
    | error e => rfl
    | ok frames => exact congrArg Except.ok (generatedName_eq_prefixed k.shownName? _)

end Registry

end StyleEngine
