/-!
# Declarations

A declaration is a property and its value as CSS text. Rules keep their declarations sorted by
property; declarations of one property are fallbacks and stay in order.
-/

namespace StyleEngine

structure Declaration where
  property : String
  value : String
  deriving DecidableEq, Repr

namespace Declaration

/-- `property:value`. -/
def css (d : Declaration) : String := d.property ++ ":" ++ d.value

/-- The declarations separated by semicolons. -/
def cssAll (ds : List Declaration) : String := ";".intercalate (ds.map css)

/-- Puts `d` in front of the first declaration whose property is not smaller. -/
def insertSorted (d : Declaration) : List Declaration → List Declaration
  | [] => [d]
  | e :: rest => if d.property ≤ e.property then d :: e :: rest else e :: insertSorted d rest

/-- The declarations by property; equal properties keep their order. -/
def sort : List Declaration → List Declaration
  | [] => []
  | d :: rest => insertSorted d (sort rest)

/-- `old` without the properties of `new`, then `new`, sorted. -/
def replace (old new : List Declaration) : List Declaration :=
  sort (old.filter (fun d => !(new.map property).contains d.property) ++ new)

theorem insertSorted_perm (d : Declaration) (ds : List Declaration) :
    (insertSorted d ds).Perm (d :: ds) := by
  induction ds with
  | nil => exact .refl _
  | cons e rest ih =>
    rw [insertSorted]
    split
    · exact .refl _
    · exact (ih.cons e).trans (.swap d e rest)

/-- Sorting loses and invents no declaration. -/
theorem sort_perm (ds : List Declaration) : (sort ds).Perm ds := by
  induction ds with
  | nil => exact .refl _
  | cons d rest ih => exact (insertSorted_perm d _).trans (ih.cons d)

example : sort [⟨"b", "1"⟩, ⟨"a", "2"⟩, ⟨"b", "0"⟩] = [⟨"a", "2"⟩, ⟨"b", "1"⟩, ⟨"b", "0"⟩] := by decide

end Declaration

end StyleEngine
