import StyleEngine.Proofs.Registry.Animation
import StyleEngine.Proofs.Style.Anonymous

/-!
# What generated names are made of

A class or an animation is named by the debug name that shows and the 32-bit hash of its text. The hash is written
without an underscore, so the name falls apart in one way only, even if the debug name looks like a generated name
itself. Two names that are returned are equal exactly when both parts are (`generated_names_tell_parts`).
-/

namespace StyleEngine

/-- The debug name that shows, and the hash. -/
structure NameParts where
  debugName? : Option String
  hash : UInt32
  deriving DecidableEq, Repr

def NameParts.name (parts : NameParts) : String :=
  Registry.generatedName parts.debugName? (Text.base36 parts.hash)

/-- What a registration is named by. One that fails or returns no name is not named. -/
def Registration.nameParts? : Registration → Option NameParts
  | style d debug =>
    (d.normalize debug).toOption.map fun normal =>
      ⟨if debug then d.shownName? else none, Text.hash32 (Registry.hashText normal)⟩
  | keyframes k debug =>
    (Registry.compileFrames k.frames).toOption.map fun frames =>
      ⟨if debug then k.shownName? else none, Text.hash32 (framesCss frames)⟩
  | rule _ _ | faces _ => none

/-- The class or the animation name that a registration returns. -/
def Registry.returnedName? (r : Registry) : Registration → Option String
  | .style d debug => (r.registerStyle d debug).toOption.map Prod.fst
  | .keyframes k debug => (r.registerKeyframes k debug).toOption.map Prod.fst
  | .rule _ _ | .faces _ => none

theorem NameParts.name_injective : Function.Injective NameParts.name := by
  rintro ⟨p, m⟩ ⟨q, n⟩ h
  obtain ⟨hdebug, hhash⟩ := Registry.generatedName_inj (Text.underscore_notMem_base36 m)
    (Text.underscore_notMem_base36 n) h
  obtain rfl : p = q := hdebug
  obtain rfl : m = n := Text.base36_inj.mp hhash
  rfl

namespace Registry

/-- The name that is returned is made of the parts, whatever the registry holds. -/
theorem returnedName?_eq (r : Registry) (x : Registration) :
    r.returnedName? x = x.nameParts?.map NameParts.name := by
  cases x with
  | rule | faces => rfl
  | style d debug =>
    rw [returnedName?, Registration.nameParts?, registerStyle_eq]
    cases h : d.normalize debug with
    | error e => rfl
    | ok normal =>
      have hdebug : normal.debugName? = if debug then d.shownName? else none := Description.debugName?_of_normalize h
      show some (className normal) = some (NameParts.name ⟨_, _⟩)
      rw [className, hdebug]
      rfl
  | keyframes k debug =>
    rw [returnedName?, Registration.nameParts?, registerKeyframes_eq]
    cases compileFrames k.frames <;> rfl

/-- Every 32-bit number is written as a numeral that reads back as that number. So a generated name, whatever the debug
name, tells the debug name and the hash, and two registrations, of styles or keyframes, in any two registries return
the same name exactly when the same debug name shows and the texts have the same 32-bit hash. -/
theorem generated_names_tell_parts :
    (∀ n : UInt32, Text.Numeral36 n.toNat (Text.base36 n)) ∧
    (∀ (p q : Option String) (m n : UInt32),
      generatedName p (Text.base36 m) = generatedName q (Text.base36 n) ↔ p = q ∧ m = n) ∧
    ∀ (r r' : Registry) (x y : Registration),
      r.returnedName? x = r'.returnedName? y ↔ x.nameParts? = y.nameParts? := by
  refine ⟨Text.numeral36_base36, fun p q m n => ?_, fun r r' x y => ?_⟩
  · constructor
    · intro h
      have hparts : (⟨p, m⟩ : NameParts) = ⟨q, n⟩ := NameParts.name_injective h
      exact NameParts.mk.inj hparts
    · rintro ⟨rfl, rfl⟩
      rfl
  · rw [returnedName?_eq, returnedName?_eq]
    exact (Option.map_injective NameParts.name_injective).eq_iff

end Registry

end StyleEngine
