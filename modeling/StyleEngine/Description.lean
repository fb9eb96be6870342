import StyleEngine.Keyed
import StyleEngine.Value

/-!
# Descriptions

A style description holds declarations, nested descriptions under selectors, and three directives
that are told apart from being set to their default. Declarations and nested descriptions keep the
order of their first writing.
-/

namespace StyleEngine

structure Description where
  declarations : List (String × Value) := []
  nested : List (String × Description) := []
  unique? : Option Bool := none
  debugName? : Option String := none
  priority? : Option Nat := none

namespace Description

/-- Sets a declaration in place. -/
def set (d : Description) (property : String) (value : Value) : Description :=
  { d with declarations := Keyed.put property value d.declarations }

/-- Puts a child under a selector, in place of an earlier one. -/
def nest (d : Description) (selector : String) (child : Description) : Description :=
  { d with nested := Keyed.put selector child d.nested }

def withUnique (d : Description) (unique : Bool) : Description := { d with unique? := some unique }
def withDebugName (d : Description) (name : String) : Description := { d with debugName? := some name }
def withPriority (d : Description) (priority : Nat) : Description :=
  { d with priority? := some priority }

/-- A description that only nests `d`. -/
def wrap (d : Description) (selector : String) : Description := Description.nest {} selector d

/-- `d` wrapped so many times. -/
def wrapTimes (d : Description) (selector : String) : Nat → Description
  | 0 => d
  | n + 1 => wrap (wrapTimes d selector n) selector

def get? (d : Description) (property : String) : Option Value := d.declarations.lookup property
def getNested? (d : Description) (selector : String) : Option Description := d.nested.lookup selector

def isUnique (d : Description) : Bool := d.unique?.getD false
def priority (d : Description) : Nat := d.priority?.getD 0
def isEmpty (d : Description) : Bool := d.declarations.isEmpty && d.nested.isEmpty

/-- The debug name, unless it is empty. -/
def shownName? (d : Description) : Option String := d.debugName?.filter (!·.isEmpty)

/-- Sameness of declaration lists: the same properties in the same order with the same values. -/
def sameDeclarations : List (String × Value) → List (String × Value) → Bool
  | [], [] => true
  | (p, v) :: as, (q, w) :: bs => p == q && v == w && sameDeclarations as bs
  | _, _ => false

mutual

/-- Sameness of descriptions. A directive that is not set differs from every set one. -/
def same : Description → Description → Bool
  | ⟨ds, ns, unique?, debugName?, priority?⟩, e =>
    sameDeclarations ds e.declarations && sameNested ns e.nested && unique? == e.unique? &&
      debugName? == e.debugName? && priority? == e.priority?

def sameNested : List (String × Description) → List (String × Description) → Bool
  | [], [] => true
  | (s, d) :: as, (t, e) :: bs => s == t && same d e && sameNested as bs
  | _, _ => false

end

instance : BEq Description := ⟨same⟩

end Description

/-- Animation keyframes: offsets with their declarations, in the order of their first writing. -/
structure Keyframes where
  frames : List (String × Description) := []
  debugName? : Option String := none

namespace Keyframes

/-- Adds the frame at an offset, in place of an earlier one. -/
def frame (k : Keyframes) (offset : String) (d : Description) : Keyframes :=
  { k with frames := Keyed.put offset d k.frames }

def withDebugName (k : Keyframes) (name : String) : Keyframes := { k with debugName? := some name }

/-- The debug name, unless it is empty. -/
def shownName? (k : Keyframes) : Option String := k.debugName?.filter (!·.isEmpty)

def same (a b : Keyframes) : Bool :=
  Description.sameNested a.frames b.frames && a.debugName? == b.debugName?

instance : BEq Keyframes := ⟨same⟩

end Keyframes

end StyleEngine
