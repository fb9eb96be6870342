import StyleEngine.Description.OfData

/-!
# Which data spells a description

The grammar of descriptions: what each directive takes, where maps may stand, and what is declared
(`Accepted`). Reading accepts exactly this grammar. Data outside it has members that do not fit; reading
stops at the first of them in document order, where the members of a nested map stand in place of that map,
and the error carries its key (`ofData_accepts`).
-/

namespace StyleEngine

namespace Data

mutual

/-- Whether there is no map in the data, at any depth of lists. -/
def isMapFree : Data → Bool
  | map _ => false
  | list items => isMapFreeAll items
  | _ => true

def isMapFreeAll : List Data → Bool
  | [] => true
  | item :: rest => isMapFree item && isMapFreeAll rest

end

/-- Whether data is a natural number that is small enough for a priority, or null. -/
def isPriority : Data → Bool
  | null => true
  | number (.natural n) => n ≤ maxPriority
  | _ => false

end Data

namespace Description

def directiveKeys : List String := ["$nest", "$unique", "$debugName", "$priority"]

/-- Whether data that is no map fits a key. -/
def fits (key : String) (value : Data) : Bool :=
  if key = "$nest" then value.isSkipped
  else if key = "$unique" then value.kind = .null || value.kind = .boolean
  else if key = "$debugName" then value.kind = .null || value.kind = .text
  else if key = "$priority" then value.isPriority
  else value.isMapFree

mutual

/-- Data that spells a description. -/
inductive Accepted : Data → Prop
  | map {members : List (String × Data)}
      (h : ∀ key value, (key, value) ∈ members → MemberAccepted key value) : Accepted (.map members)

/-- A member of such data. -/
inductive MemberAccepted : String → Data → Prop
  | leaf {key : String} {value : Data} (hkind : value.kind ≠ .map) (h : fits key value = true) :
      MemberAccepted key value
  /-- Children that are null or false are left out. -/
  | nest {members : List (String × Data)}
      (h : ∀ selector child, (selector, child) ∈ members → child.isSkipped = false → Accepted child) :
      MemberAccepted "$nest" (.map members)
  | selector {key : String} {members : List (String × Data)} (hkey : key ∉ directiveKeys)
      (hnested : Selector.isNested key = true) (h : Accepted (.map members)) : MemberAccepted key (.map members)

end

/-- What a member without members of its own adds to the offences. -/
def verdict (fitting : Bool) (key : String) : List String := if fitting then [] else [key]

mutual

/-- The keys of the members that do not fit, in document order. A description that is no map stands for itself,
under the empty key. -/
def offences : Data → List String
  | .map members => offencesAll members
  | _ => [""]

def offencesAll : List (String × Data) → List String
  | [] => []
  | (key, value) :: rest => memberOffences key value ++ offencesAll rest

/-- A map where maps may stand is searched; it does not count itself. -/
def memberOffences (key : String) : Data → List String
  | .map members =>
    if key = "$nest" then nestOffences members
    else if key ∉ directiveKeys ∧ Selector.isNested key = true then offencesAll members
    else [key]
  | value => verdict (fits key value) key

def nestOffences : List (String × Data) → List String
  | [] => []
  | (_, child) :: rest => (if child.isSkipped then [] else offences child) ++ nestOffences rest

end

/-! ## Reading reports the first offence -/

/-- A reading succeeds without offences, and otherwise names the key of the first. -/
def Reports {α : Type} (reading : Except StyleError α) : List String → Prop
  | [] => ∃ result, reading = .ok result
  | key :: _ => ∃ expected found, reading = .error (.invalidDescription key expected found)

section Reports

variable {α β : Type} {reading : Except StyleError α} {whole : Except StyleError β} {first second : List String}

/-- What is read second is not looked at after an offence. -/
theorem Reports.andThen (h : Reports reading first) (hstop : ∀ e, reading = .error e → whole = .error e)
    (hnext : ∀ a, reading = .ok a → Reports whole second) : Reports whole (first ++ second) := by
  cases first with
  | nil =>
    obtain ⟨a, ha⟩ := h
    exact hnext a ha
  | cons key _ =>
    obtain ⟨expected, found, he⟩ := h
    exact ⟨expected, found, hstop _ he⟩

theorem Reports.map (h : Reports reading first) (f : α → β) : Reports (reading.map f) first := by
  cases first with
  | nil =>
    obtain ⟨a, rfl⟩ := h
    exact ⟨f a, rfl⟩
  | cons key _ =>
    obtain ⟨expected, found, rfl⟩ := h
    exact ⟨expected, found, rfl⟩

end Reports

mutual

theorem reports_value (key : String) (v : Data) : Reports (Value.ofData key v) (verdict v.isMapFree key) := by
  cases v with
  | null | boolean _ | number _ | text _ => exact ⟨_, rfl⟩
  | map _ => exact ⟨_, _, rfl⟩
  | list items => exact (reports_values key items).map Value.list

theorem reports_values (key : String) (items : List Data) :
    Reports (Value.ofDataAll key items) (verdict (Data.isMapFreeAll items) key) := by
  cases items with
  | nil => exact ⟨_, rfl⟩
  | cons item rest =>
    have hitem := reports_value key item
    have hrest := reports_values key rest
    rw [Data.isMapFreeAll, Value.ofDataAll]
    cases h : item.isMapFree with
    | false =>
      rw [h] at hitem
      obtain ⟨expected, found, he⟩ := hitem
      rw [he]
      exact ⟨expected, found, rfl⟩
    | true =>
      rw [h] at hitem
      obtain ⟨v, hv⟩ := hitem
      rw [hv]
      exact hrest.map (v :: ·)

end

theorem ofKey_of_notMem {key : String} (h : key ∉ directiveKeys) :
    MemberRole.ofKey key = if Selector.isNested key then .selector else .property := by
  simp only [directiveKeys, List.mem_cons, List.not_mem_nil, or_false, not_or] at h
  obtain ⟨hnest, hunique, hdebugName, hpriority⟩ := h
  rw [MemberRole.ofKey, if_neg hnest, if_neg hunique, if_neg hdebugName, if_neg hpriority]

theorem fits_of_notMem {key : String} (h : key ∉ directiveKeys) (value : Data) :
    fits key value = value.isMapFree := by
  simp only [directiveKeys, List.mem_cons, List.not_mem_nil, or_false, not_or] at h
  obtain ⟨hnest, hunique, hdebugName, hpriority⟩ := h
  rw [fits, if_neg hnest, if_neg hunique, if_neg hdebugName, if_neg hpriority]

theorem reports_priority (d : Description) (n : Numeral) :
    Reports (addLeaf d "$priority" (.number n)) (verdict (Data.number n).isPriority "$priority") := by
  have hrole : MemberRole.ofKey "$priority" = .priority := rfl
  simp only [addLeaf, hrole]
  cases n with
  | natural p =>
    rw [Numeral.priority?, Data.isPriority]
    by_cases h : p ≤ maxPriority
    · rw [if_pos h, decide_eq_true h]
      exact ⟨_, rfl⟩
    · rw [if_neg h, decide_eq_false h]
      exact ⟨_, _, rfl⟩
  | negative _ | real _ => exact ⟨_, _, rfl⟩

/-- A member that is no map is an offence unless it fits its key. -/
theorem reports_addLeaf (d : Description) (key : String) {value : Data} (hkind : value.kind ≠ .map) :
    Reports (addLeaf d key value) (verdict (fits key value) key) := by
  by_cases hkey : key ∈ directiveKeys
  · simp only [directiveKeys, List.mem_cons, List.not_mem_nil, or_false] at hkey
    rcases hkey with rfl | rfl | rfl | rfl
    · show Reports (if value.isSkipped then _ else _) (verdict value.isSkipped "$nest")
      cases value.isSkipped with
      | false => exact ⟨_, _, rfl⟩
      | true => exact ⟨_, rfl⟩
    · cases value with
      | null | boolean _ => exact ⟨_, rfl⟩
      | number _ | text _ | list _ | map _ => exact ⟨_, _, rfl⟩
    · cases value with
      | null | text _ => exact ⟨_, rfl⟩
      | number _ | boolean _ | list _ | map _ => exact ⟨_, _, rfl⟩
    · cases value with
      | null => exact ⟨_, rfl⟩
      | number n => exact reports_priority d n
      | boolean _ | text _ | list _ | map _ => exact ⟨_, _, rfl⟩
  · have hleaf : addLeaf d key value = (Value.ofData key value).map (d.set key) := by
      have hrole := ofKey_of_notMem hkey
      split at hrole
      · simp only [addLeaf, hrole]
      · simp only [addLeaf, hrole]
    rw [hleaf, fits_of_notMem hkey]
    exact (reports_value key value).map (d.set key)

mutual

theorem reports_ofData (v : Data) : Reports (ofData v) (offences v) := by
  cases v with
  | map members => exact reports_addMembers {} members
  | null | boolean _ | number _ | text _ | list _ => exact ⟨_, _, rfl⟩

theorem reports_addMembers (d : Description) (members : List (String × Data)) :
    Reports (addMembers d members) (offencesAll members) := by
  cases members with
  | nil => exact ⟨d, rfl⟩
  | cons member rest =>
    cases member with
    | mk key value =>
      rw [addMembers, offencesAll]
      refine (reports_addMember d key value).andThen (fun e he => by rw [he]) fun a ha => ?_
      rw [ha]
      exact reports_addMembers a rest

theorem reports_addMember (d : Description) (key : String) (value : Data) :
    Reports (addMember d key value) (memberOffences key value) := by
  cases value with
  | null | boolean _ | number _ | text _ | list _ => exact reports_addLeaf d key nofun
  | map members =>
    rw [memberOffences]
    by_cases hnest : key = "$nest"
    · subst hnest
      exact reports_addNested d members
    rw [if_neg hnest]
    split
    · next h =>
      have hrole : MemberRole.ofKey key = .selector := by rw [ofKey_of_notMem h.1, if_pos h.2]
      rw [addMember, hrole]
      exact (reports_addMembers {} members).map (d.nest key)
    · next h =>
      by_cases hkey : key ∈ directiveKeys
      · simp only [directiveKeys, List.mem_cons, List.not_mem_nil, or_false] at hkey
        rcases hkey with rfl | rfl | rfl | rfl
        · exact absurd rfl hnest
        all_goals exact ⟨_, _, rfl⟩
      · have hrole : MemberRole.ofKey key = .property := by
          rw [ofKey_of_notMem hkey, if_neg fun hnested => h ⟨hkey, hnested⟩]
        rw [addMember, hrole]
        exact ⟨_, _, rfl⟩

theorem reports_addNested (d : Description) (members : List (String × Data)) :
    Reports (addNested d members) (nestOffences members) := by
  cases members with
  | nil => exact ⟨d, rfl⟩
  | cons member rest =>
    cases member with
    | mk selector child =>
      rw [addNested, nestOffences]
      cases child.isSkipped with
      | true => exact reports_addNested d rest
      | false =>
        refine (reports_ofData child).andThen (fun e he => by rw [he]; rfl) fun c hc => ?_
        rw [hc]
        exact reports_addNested (d.nest selector c) rest

end

/-! ## The grammar has no offences -/

theorem verdict_eq_nil_iff {fitting : Bool} {key : String} : verdict fitting key = [] ↔ fitting = true := by
  cases fitting <;> simp [verdict]

/-- The ways in which a map is a member. -/
theorem memberAccepted_map_iff {key : String} {members : List (String × Data)} :
    MemberAccepted key (.map members) ↔
      (key = "$nest" ∧ ∀ selector child, (selector, child) ∈ members → child.isSkipped = false → Accepted child) ∨
      ((key ∉ directiveKeys ∧ Selector.isNested key = true) ∧ Accepted (.map members)) := by
  constructor
  · intro h
    cases h with
    | leaf hkind _ => exact absurd rfl hkind
    | nest h => exact .inl ⟨rfl, h⟩
    | selector hkey hnested h => exact .inr ⟨⟨hkey, hnested⟩, h⟩
  · rintro (⟨rfl, h⟩ | ⟨⟨hkey, hnested⟩, h⟩)
    · exact .nest h
    · exact .selector hkey hnested h

theorem memberAccepted_leaf_iff {key : String} {value : Data} (hkind : value.kind ≠ .map) :
    MemberAccepted key value ↔ fits key value = true := by
  constructor
  · intro h
    cases h with
    | leaf _ h => exact h
    | nest | selector => exact absurd rfl hkind
  · exact .leaf hkind

theorem accepted_map_iff {members : List (String × Data)} :
    Accepted (.map members) ↔ ∀ key value, (key, value) ∈ members → MemberAccepted key value :=
  ⟨fun ⟨h⟩ => h, .map⟩

mutual

theorem offences_eq_nil_iff (v : Data) : offences v = [] ↔ Accepted v := by
  cases v with
  | map members => exact (offencesAll_eq_nil_iff members).trans accepted_map_iff.symm
  | null | boolean _ | number _ | text _ | list _ => exact ⟨fun h => absurd h (List.cons_ne_nil _ _), nofun⟩

theorem offencesAll_eq_nil_iff (members : List (String × Data)) :
    offencesAll members = [] ↔ ∀ key value, (key, value) ∈ members → MemberAccepted key value := by
  cases members with
  | nil => exact ⟨nofun, fun _ => rfl⟩
  | cons member rest =>
    cases member with
    | mk key value =>
      rw [offencesAll, List.append_eq_nil_iff, memberOffences_eq_nil_iff key value, offencesAll_eq_nil_iff rest]
      simp [or_imp, forall_and]

theorem memberOffences_eq_nil_iff (key : String) (value : Data) :
    memberOffences key value = [] ↔ MemberAccepted key value := by
  cases value with
  | null | boolean _ | number _ | text _ | list _ =>
    exact verdict_eq_nil_iff.trans (memberAccepted_leaf_iff (by nofun)).symm
  | map members =>
    rw [memberOffences, memberAccepted_map_iff, accepted_map_iff, ← offencesAll_eq_nil_iff members,
      ← nestOffences_eq_nil_iff members]
    by_cases hnest : key = "$nest"
    · simp [hnest, directiveKeys]
    · by_cases h : key ∉ directiveKeys ∧ Selector.isNested key = true <;> simp [hnest, h]

theorem nestOffences_eq_nil_iff (members : List (String × Data)) :
    nestOffences members = [] ↔
      ∀ selector child, (selector, child) ∈ members → child.isSkipped = false → Accepted child := by
  cases members with
  | nil => exact ⟨nofun, fun _ => rfl⟩
  | cons member rest =>
    cases member with
    | mk selector child =>
      rw [nestOffences, List.append_eq_nil_iff, nestOffences_eq_nil_iff rest]
      have hchild := offences_eq_nil_iff child
      cases hskip : child.isSkipped <;> simp [or_imp, forall_and, hskip, hchild]

end

/-- Reading succeeds exactly on what is accepted. Otherwise the error is that of an invalid description, and
it carries the key of the first member in document order that does not fit. -/
theorem ofData_accepts (v : Data) :
    ((∃ d, ofData v = .ok d) ↔ Accepted v) ∧
      (¬ Accepted v → ∃ key expected found,
        (offences v).head? = some key ∧ ofData v = .error (.invalidDescription key expected found)) := by
  have hreports := reports_ofData v
  rw [← offences_eq_nil_iff]
  cases h : offences v with
  | nil =>
    rw [h] at hreports
    exact ⟨⟨fun _ => rfl, fun _ => hreports⟩, fun hne => absurd rfl hne⟩
  | cons key rest =>
    rw [h] at hreports
    obtain ⟨expected, found, he⟩ := hreports
    rw [he]
    exact ⟨⟨nofun, nofun⟩, fun _ => ⟨key, expected, found, rfl, rfl⟩⟩

/-- Three members do not fit, and the first stands below an at-rule that does. -/
def misfits : Data :=
  .map [("$priority", .number (.natural 1)), ("$nest", .map [("&:hover", .boolean false)]),
    ("@media print", .map [("color", .list [.text "red", .map []]), ("$unique", .text "yes")]), ("$nest", .text "&")]

theorem ofData_accepts_misfits :
    offences misfits = ["color", "$unique", "$nest"] ∧ ¬ Accepted misfits ∧
      ∃ expected found, ofData misfits = .error (.invalidDescription "color" expected found) := by
  have hoffences : offences misfits = ["color", "$unique", "$nest"] := by decide
  have hnot : ¬ Accepted misfits := fun h => by
    rw [(offences_eq_nil_iff misfits).mpr h] at hoffences
    cases hoffences
  obtain ⟨key, expected, found, hkey, he⟩ := (ofData_accepts misfits).2 hnot
  rw [hoffences] at hkey
  obtain rfl := Option.some.inj hkey
  exact ⟨hoffences, hnot, expected, found, he⟩

end Description

end StyleEngine
