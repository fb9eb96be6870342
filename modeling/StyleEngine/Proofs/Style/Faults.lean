import StyleEngine.Proofs.Registry.Attempt
import StyleEngine.Proofs.Style.Texts

/-!
# What keeps a description from being normalized

Normalization walks a description in pre-order. At each node it checks the depth, then the values of the
declarations in order, then the children in order (`Description.walk`), and the first check that fails is the
error. So there is a normal style exactly when no chain of keys is too long and every value that is declared
can be written. Chains are made of the keys of the description (`Description.Nests`); the levels that
priorities add are not among them. At-rules that hold declarations only refuse nesting as well, and a batch of
them reports its first offender. The main statement is `normalize_fails_exactly`.
-/

namespace StyleEngine

/-! ## The error of a result -/

def errorOf? {ε α : Type} : Except ε α → Option ε
  | .ok _ => none
  | .error e => some e

section ErrorOf

variable {ε α β : Type}

theorem errorOf?_map (x : Except ε α) (f : α → β) : errorOf? (x.map f) = errorOf? x := by
  cases x <;> rfl

theorem errorOf?_eq_none_iff {x : Except ε α} : errorOf? x = none ↔ ∃ a, x = .ok a := by
  cases x with
  | error e => exact ⟨nofun, nofun⟩
  | ok a => exact ⟨fun _ => ⟨a, rfl⟩, fun _ => rfl⟩

theorem errorOf?_eq_some_iff {x : Except ε α} {e : ε} : errorOf? x = some e ↔ x = .error e := by
  cases x with
  | error e' => simp [errorOf?]
  | ok a => exact ⟨nofun, nofun⟩

end ErrorOf

namespace Value

/-! ## Values -/

mutual

/-- The values that a value is written from, in order: lists and functions are taken apart. -/
def atoms : Value → List Value
  | list items => atomsAll items
  | function _ _ parameters => atomsAll parameters
  | v => [v]

def atomsAll : List Value → List Value
  | [] => []
  | v :: rest => atoms v ++ atomsAll rest

end

/-- Why a value by itself refuses to be written. -/
def refusal? : Value → Option StyleError
  | custom _ (.error e) => some e
  | _ => none

mutual

/-- Writing a value fails with the first refusal inside it. -/
theorem errorOf?_css (v : Value) : errorOf? v.css = v.atoms.findSome? refusal? := by
  cases v with
  | null | boolean _ | number _ | text _ | color _ => rfl
  | list items => exact (errorOf?_map _ _).trans (errorOf?_cssAll items)
  | function _ _ parameters => exact (errorOf?_map _ _).trans (errorOf?_cssAll parameters)
  | custom _ rendering => cases rendering <;> rfl

theorem errorOf?_cssAll (vs : List Value) : errorOf? (cssAll vs) = (atomsAll vs).findSome? refusal? := by
  cases vs with
  | nil => rfl
  | cons v rest =>
    rw [atomsAll, List.findSome?_append, ← errorOf?_css v, ← errorOf?_cssAll rest, cssAll]
    cases v.css with
    | error e => rfl
    | ok s => exact errorOf?_map _ _

end

/-- The values that a declaration writes: those of a truthy value. -/
def written (v : Value) : List Value := if v.isFalsy then [] else v.fallbacks

end Value

namespace Description

/-! ## The walk -/

/-- What is checked on the way through a description. -/
inductive Check where
  | depth (n : Nat)
  | value (v : Value)

def Check.fault? : Check → Option StyleError
  | depth n => if maxNesting < n then some (.nestingTooDeep maxNesting) else none
  | value v => v.atoms.findSome? Value.refusal?

/-- The values that are written for declarations, in order. -/
def writtenValues (declarations : List (String × Value)) : List Value :=
  declarations.flatMap fun entry => entry.2.written

mutual

/-- The checks of a description that stands at a depth, in pre-order. -/
def walkAt (depth : Nat) : Description → List Check
  | ⟨declarations, nested, _, _, _⟩ =>
    .depth depth :: (writtenValues declarations).map .value ++ walkAll (depth + 1) nested

def walkAll (depth : Nat) : List (String × Description) → List Check
  | [] => []
  | (_, child) :: rest => walkAt depth child ++ walkAll depth rest

end

def walk (d : Description) : List Check := walkAt 0 d

/-- The first fault on the walk. -/
def fault? (d : Description) : Option StyleError := d.walk.findSome? Check.fault?

theorem errorOf?_renderValues (property : String) (vs : List Value) :
    errorOf? (renderValues property vs) = (vs.map Check.value).findSome? Check.fault? := by
  induction vs with
  | nil => rfl
  | cons v rest ih =>
    have hv : Check.fault? (.value v) = errorOf? v.css := (Value.errorOf?_css v).symm
    rw [List.map_cons, List.findSome?_cons, hv, ← ih, renderValues]
    cases v.css with
    | error e => rfl
    | ok s => exact errorOf?_map _ _

theorem errorOf?_renderEntry (property : String) (v : Value) :
    errorOf? (renderEntry property v) = (v.written.map Check.value).findSome? Check.fault? := by
  rw [renderEntry, Value.written]
  split
  · rfl
  · exact errorOf?_renderValues _ _

theorem errorOf?_renderDeclarations (declarations : List (String × Value)) :
    errorOf? (renderDeclarations declarations) =
      ((writtenValues declarations).map Check.value).findSome? Check.fault? := by
  induction declarations with
  | nil => rfl
  | cons entry rest ih =>
    obtain ⟨property, v⟩ := entry
    have hwritten : writtenValues ((property, v) :: rest) = v.written ++ writtenValues rest := List.flatMap_cons
    rw [hwritten, List.map_append, List.findSome?_append, ← ih, ← errorOf?_renderEntry property, renderDeclarations]
    cases renderEntry property v with
    | error e => rfl
    | ok ds => exact errorOf?_map _ _

mutual

/-- Normalization fails with the first fault on the walk. -/
theorem errorOf?_normalizeAt (debug : Bool) (depth : Nat) (d : Description) :
    errorOf? (normalizeAt debug depth d) = (walkAt depth d).findSome? Check.fault? := by
  cases d with
  | mk declarations nested _ _ _ =>
    rw [walkAt, List.cons_append, List.findSome?_cons, List.findSome?_append,
      ← errorOf?_renderDeclarations declarations, ← errorOf?_normalizeAll debug (depth + 1) nested, Check.fault?,
      normalizeAt]
    split
    · rfl
    · cases renderDeclarations declarations with
      | error e => rfl
      | ok ds => cases normalizeAll debug (depth + 1) nested <;> rfl

theorem errorOf?_normalizeAll (debug : Bool) (depth : Nat) (nested : List (String × Description)) :
    errorOf? (normalizeAll debug depth nested) = (walkAll depth nested).findSome? Check.fault? := by
  cases nested with
  | nil => rfl
  | cons entry rest =>
    cases entry with
    | mk selector child =>
      rw [walkAll, List.findSome?_append, ← errorOf?_normalizeAt debug depth child,
        ← errorOf?_normalizeAll debug depth rest, normalizeAll]
      cases normalizeAt debug depth child with
      | error e => rfl
      | ok style => exact errorOf?_map _ _

end

theorem errorOf?_normalize (d : Description) (debug : Bool) : errorOf? (d.normalize debug) = d.fault? :=
  errorOf?_normalizeAt debug 0 d

/-! ## Chains of keys -/

/-- A description is reached from another one by a chain of keys. -/
inductive Nests : Description → List String → Description → Prop
  | self (d : Description) : Nests d [] d
  | child {d c e : Description} {key : String} {keys : List String} (hc : (key, c) ∈ d.nested)
      (h : Nests c keys e) : Nests d (key :: keys) e

/-- Whether every value that a description itself declares can be written. -/
def IsWritable (d : Description) : Prop :=
  ∀ property v, (property, v) ∈ d.declarations → v.isFalsy = false → ∀ w ∈ v.fallbacks, ∃ s, w.css = .ok s

/-- Whether, below a description at a depth, every chain ends within the limit at a description that is writable. -/
def Within (depth : Nat) (d : Description) : Prop :=
  ∀ keys e, d.Nests keys e → depth + keys.length ≤ maxNesting ∧ e.IsWritable

theorem within_iff {depth : Nat} {d : Description} :
    d.Within depth ↔
      depth ≤ maxNesting ∧ d.IsWritable ∧ ∀ key c, (key, c) ∈ d.nested → c.Within (depth + 1) := by
  constructor
  · intro h
    obtain ⟨hdepth, hd⟩ := h [] d (.self d)
    refine ⟨hdepth, hd, fun key c hc keys e he => ?_⟩
    obtain ⟨hlength, he⟩ := h (key :: keys) e (.child hc he)
    rw [List.length_cons] at hlength
    exact ⟨by omega, he⟩
  · rintro ⟨hdepth, hd, hchildren⟩ keys e he
    cases he with
    | self => exact ⟨hdepth, hd⟩
    | @child _ c _ key keys hc h =>
      obtain ⟨hlength, he⟩ := hchildren key c hc keys e h
      rw [List.length_cons]
      exact ⟨by omega, he⟩

theorem depth_faultless_iff {n : Nat} : Check.fault? (.depth n) = none ↔ n ≤ maxNesting := by
  rw [Check.fault?]
  split
  · next h => exact ⟨nofun, fun hle => absurd h (Nat.not_lt_of_le hle)⟩
  · next h => exact ⟨fun _ => Nat.le_of_not_lt h, fun _ => rfl⟩

theorem value_faultless_iff {v : Value} : Check.fault? (.value v) = none ↔ ∃ s, v.css = .ok s := by
  rw [Check.fault?, ← Value.errorOf?_css, errorOf?_eq_none_iff]

theorem isWritable_iff (d : Description) :
    d.IsWritable ↔ ∀ check ∈ (writtenValues d.declarations).map Check.value, check.fault? = none := by
  simp only [List.forall_mem_map, value_faultless_iff, writtenValues, List.mem_flatMap, IsWritable]
  constructor
  · rintro h w ⟨⟨property, v⟩, hv, hw⟩
    cases hfalsy : v.isFalsy with
    | true =>
      rw [Value.written, hfalsy] at hw
      cases hw
    | false =>
      rw [Value.written, hfalsy] at hw
      exact h property v hv hfalsy w hw
  · intro h property v hv htruthy w hw
    exact h w ⟨(property, v), hv, by rwa [Value.written, htruthy]⟩

mutual

/-- There are no faults exactly when every chain ends within the limit, at a description that is writable. -/
theorem walkAt_faultless_iff (depth : Nat) (d : Description) :
    (∀ check ∈ walkAt depth d, check.fault? = none) ↔ d.Within depth := by
  cases d with
  | mk declarations nested _ _ _ =>
    rw [walkAt, List.cons_append, List.forall_mem_cons, List.forall_mem_append, depth_faultless_iff,
      walkAll_faultless_iff (depth + 1) nested, within_iff, isWritable_iff]

theorem walkAll_faultless_iff (depth : Nat) (nested : List (String × Description)) :
    (∀ check ∈ walkAll depth nested, check.fault? = none) ↔ ∀ key c, (key, c) ∈ nested → c.Within depth := by
  cases nested with
  | nil => exact ⟨fun _ _ _ h => absurd h List.not_mem_nil, fun _ _ h => absurd h List.not_mem_nil⟩
  | cons entry rest =>
    cases entry with
    | mk selector child =>
      rw [walkAll, List.forall_mem_append, walkAt_faultless_iff depth child, walkAll_faultless_iff depth rest]
      constructor
      · rintro ⟨hchild, hrest⟩ key c hc
        rcases List.mem_cons.mp hc with heq | hc
        · obtain ⟨rfl, rfl⟩ := Prod.mk.inj heq
          exact hchild
        · exact hrest key c hc
      · intro h
        exact ⟨h selector child List.mem_cons_self, fun key c hc => h key c (List.mem_cons_of_mem _ hc)⟩

end

theorem normalizes_iff_within (d : Description) (debug : Bool) :
    (∃ style, d.normalize debug = .ok style) ↔ d.Within 0 := by
  rw [← errorOf?_eq_none_iff, errorOf?_normalize, fault?, List.findSome?_eq_none_iff, walk, walkAt_faultless_iff]

theorem within_wrapTimes_iff {d : Description} (hnested : d.nested = []) (hd : d.IsWritable) (key : String)
    (n depth : Nat) : (d.wrapTimes key n).Within depth ↔ depth + n ≤ maxNesting := by
  induction n generalizing depth with
  | zero =>
    rw [wrapTimes, within_iff, hnested]
    exact ⟨fun h => h.1, fun h => ⟨h, hd, fun _ _ hc => absurd hc List.not_mem_nil⟩⟩
  | succ n ih =>
    have hwrap : (wrap (d.wrapTimes key n) key).nested = [(key, d.wrapTimes key n)] := rfl
    have hempty : (wrap (d.wrapTimes key n) key).IsWritable := fun _ _ h => absurd h List.not_mem_nil
    rw [wrapTimes, within_iff, hwrap]
    constructor
    · rintro ⟨-, -, hchild⟩
      have hlength := (ih (depth + 1)).mp (hchild key _ (List.mem_singleton.mpr rfl))
      omega
    · intro h
      refine ⟨by omega, hempty, fun key' c hc => ?_⟩
      obtain ⟨-, rfl⟩ := Prod.mk.inj (List.mem_singleton.mp hc)
      exact (ih (depth + 1)).mpr (by omega)

/-- As many keys as the limit says fit above a description that nests nothing, whatever its priority. -/
theorem normalizes_wrapTimes_iff {d : Description} (hnested : d.nested = []) (hd : d.IsWritable) (key : String)
    (n : Nat) (debug : Bool) : (∃ style, (d.wrapTimes key n).normalize debug = .ok style) ↔ n ≤ maxNesting := by
  rw [normalizes_iff_within, within_wrapTimes_iff hnested hd, Nat.zero_add]

/-! ## At-rules that do not nest -/

/-- The first selector that a normal style nests: the parent as often as the priority says, or the first key. -/
def outerSelector? (d : Description) : Option String :=
  if d.priority = 0 then d.nested.head?.map Prod.fst else some (repeatParent (d.priority + 1))

/-- What a rule that does not nest reports of a description: its first fault, or else the nesting. -/
def offence? (kind : FlatRuleKind) (d : Description) : Option StyleError :=
  d.fault?.or (d.outerSelector?.map (.unexpectedNesting kind))

theorem outerSelector?_eq_none_iff {d : Description} :
    d.outerSelector? = none ↔ d.nested = [] ∧ d.priority = 0 := by
  rw [outerSelector?]
  split
  · next h => simp [h]
  · next h => simp [h]

theorem offence?_eq_none_iff (kind : FlatRuleKind) (d : Description) (debug : Bool) :
    d.offence? kind = none ↔ (∃ style, d.normalize debug = .ok style) ∧ d.nested = [] ∧ d.priority = 0 := by
  rw [offence?, Option.or_eq_none_iff, Option.map_eq_none_iff, outerSelector?_eq_none_iff,
    ← errorOf?_normalize d debug, errorOf?_eq_none_iff]

theorem head?_normalizeAll {debug : Bool} {depth : Nat} {nested : List (String × Description)}
    {styles : List (String × NormalStyle)} (h : normalizeAll debug depth nested = .ok styles) :
    styles.head?.map Prod.fst = nested.head?.map Prod.fst := by
  cases nested with
  | nil =>
    unfold normalizeAll at h
    obtain rfl := Except.ok.inj h
    rfl
  | cons entry rest =>
    obtain ⟨selector, child⟩ := entry
    unfold normalizeAll at h
    split at h
    · cases h
    · obtain ⟨styles', -, rfl⟩ := ok_of_map_ok h
      rfl

theorem head?_nested_of_normalize {d : Description} {debug : Bool} {style : NormalStyle}
    (h : d.normalize debug = .ok style) : style.nested.head?.map Prod.fst = d.outerSelector? := by
  obtain ⟨declarations, nested, unique?, debugName?, priority?⟩ := d
  unfold normalize normalizeAt at h
  split at h
  · cases h
  split at h
  · cases h
  split at h
  · cases h
  next styles hstyles =>
  obtain rfl := Except.ok.inj h
  show _ = if priority?.getD 0 = 0 then nested.head?.map Prod.fst else some (repeatParent (priority?.getD 0 + 1))
  rw [raisePriority]
  split
  · exact head?_normalizeAll hstyles
  · rfl

end Description

namespace Registry

theorem errorOf?_flatDeclarations (kind : FlatRuleKind) (d : Description) :
    errorOf? (flatDeclarations kind d) = d.offence? kind := by
  rw [Description.offence?, ← Description.errorOf?_normalize d false, flatDeclarations]
  cases h : d.normalize false with
  | error e => rfl
  | ok style =>
    rw [← Description.head?_nested_of_normalize h]
    obtain ⟨declarations, nested, _, _⟩ := style
    cases nested <;> rfl

theorem errorOf?_compileFaces (ds : List Description) :
    errorOf? (compileFaces ds) = ds.findSome? (Description.offence? .fontFace) := by
  induction ds with
  | nil => rfl
  | cons d rest ih =>
    rw [List.findSome?_cons, ← errorOf?_flatDeclarations, ← ih, compileFaces]
    cases flatDeclarations .fontFace d with
    | error e => rfl
    | ok ds => exact errorOf?_map _ _

theorem errorOf?_compileFrames (frames : List (String × Description)) :
    errorOf? (compileFrames frames) = (frames.map Prod.snd).findSome? (Description.offence? .keyframes) := by
  induction frames with
  | nil => rfl
  | cons frame rest ih =>
    obtain ⟨offset, d⟩ := frame
    rw [List.map_cons, List.findSome?_cons, ← errorOf?_flatDeclarations, ← ih, compileFrames]
    cases flatDeclarations .keyframes d with
    | error e => rfl
    | ok ds => exact errorOf?_map _ _

/-- A result with the first offence in a list as its error is there exactly when all descriptions are flat. -/
theorem reports_offender {α : Type} {result : Except StyleError α} {kind : FlatRuleKind} {ds : List Description}
    (h : errorOf? result = ds.findSome? (Description.offence? kind)) (debug : Bool) :
    ((∃ a, result = .ok a) ↔
      ∀ d ∈ ds, (∃ style, d.normalize debug = .ok style) ∧ d.nested = [] ∧ d.priority = 0) ∧
    ∀ e, result = .error e ↔ ds.findSome? (Description.offence? kind) = some e := by
  constructor
  · rw [← errorOf?_eq_none_iff, h, List.findSome?_eq_none_iff]
    simp only [Description.offence?_eq_none_iff kind _ debug]
  · intro e
    rw [← errorOf?_eq_some_iff, h]

/-- Normalization succeeds exactly when no chain of keys is longer than the limit and every value that is declared
can be written, and otherwise fails with the first fault in pre-order. At-rules without nesting succeed exactly
when all their descriptions do, nest nothing and have no priority, and otherwise report the first offender. -/
theorem normalize_fails_exactly (debug : Bool) :
    (∀ d : Description,
      ((∃ style, d.normalize debug = .ok style) ↔
        ∀ keys e, d.Nests keys e → keys.length ≤ maxNesting ∧ e.IsWritable) ∧
      ∀ e, d.normalize debug = .error e ↔ d.walk.findSome? Description.Check.fault? = some e) ∧
    (∀ (r : Registry) (k : Keyframes),
      ((∃ result, r.registerKeyframes k debug = .ok result) ↔
        ∀ d ∈ k.frames.map Prod.snd, (∃ style, d.normalize debug = .ok style) ∧ d.nested = [] ∧ d.priority = 0) ∧
      ∀ e, r.registerKeyframes k debug = .error e ↔
        (k.frames.map Prod.snd).findSome? (Description.offence? .keyframes) = some e) ∧
    ∀ (r : Registry) (ds : List Description),
      ((∃ result, r.registerFaces ds = .ok result) ↔
        ∀ d ∈ ds, (∃ style, d.normalize debug = .ok style) ∧ d.nested = [] ∧ d.priority = 0) ∧
      ∀ e, r.registerFaces ds = .error e ↔ ds.findSome? (Description.offence? .fontFace) = some e := by
  refine ⟨fun d => ⟨?_, fun e => ?_⟩, fun r k => ?_, fun r ds => ?_⟩
  · rw [Description.normalizes_iff_within, Description.Within]
    simp only [Nat.zero_add]
  · rw [← errorOf?_eq_some_iff, Description.errorOf?_normalize, Description.fault?]
  · rw [registerKeyframes_eq]
    exact reports_offender ((errorOf?_map _ _).trans (errorOf?_compileFrames k.frames)) debug
  · rw [registerFaces_eq]
    exact reports_offender ((errorOf?_map _ _).trans (errorOf?_compileFaces ds)) debug

/-- A function of which a parameter is refused, after a null and an empty text, and a refusal below. -/
def rivals : Description :=
  { declarations := [("color", .null), ("top", .list [.text "", .text "0", .function .plain "calc"
      [.number 1.5, .custom "length" (.error (.invalidValue "length" "no unit"))]])]
    nested := [("&:hover", { declarations := [("left", .custom "length" (.error (.invalidValue "length" "negative")))] })] }

theorem normalize_fails_exactly_rivals :
    rivals.normalize true = .error (.invalidValue "length" "no unit") ∧
      registerFaces {} [{}, { priority? := some 1 }, rivals] = .error (.unexpectedNesting .fontFace "&&") := by
  obtain ⟨hnormalize, -, hfaces⟩ := normalize_fails_exactly true
  exact ⟨((hnormalize rivals).2 _).mpr rfl, ((hfaces {} _).2 _).mpr rfl⟩

end Registry

end StyleEngine
