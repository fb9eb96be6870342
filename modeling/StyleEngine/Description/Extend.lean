import StyleEngine.Description

/-!
# Extending descriptions

Descriptions are merged from left to right. The last truthy value of a property wins and keeps the
place of the first, children under one selector are merged in turn, and a directive is taken over
unless it has its falsy value.
-/

namespace StyleEngine.Description

/-- Sets the declarations that are not falsy. -/
def overlay (base added : List (String × Value)) : List (String × Value) :=
  Keyed.putAll base (added.filter fun e => !e.2.isFalsy)

mutual

/-- `base` with the second description on top. -/
def merge (base : Description) : Description → Description
  | ⟨declarations, nested, unique?, debugName?, priority?⟩ =>
    { declarations := overlay base.declarations declarations
      nested := mergeNested base.nested nested
      unique? := (unique?.filter id).or base.unique?
      debugName? := (debugName?.filter (!·.isEmpty)).or base.debugName?
      priority? := (priority?.filter (0 < ·)).or base.priority? }

/-- A child under a new selector is taken over as it is. -/
def mergeNested (base : List (String × Description)) :
    List (String × Description) → List (String × Description)
  | [] => base
  | (selector, child) :: rest =>
    mergeNested
      (match base.lookup selector with
        | some previous => Keyed.put selector (merge previous child) base
        | none => base ++ [(selector, child)])
      rest

end

/-- The descriptions that are present, merged from left to right. -/
def extend (ds : List (Option Description)) : Description :=
  (ds.filterMap id).foldl merge {}

end StyleEngine.Description

namespace StyleEngine

/-- The class names that are present and not empty, joined by a space. -/
def classes (tokens : List (Option String)) : String :=
  " ".intercalate ((tokens.filterMap id).filter (!·.isEmpty))

end StyleEngine
