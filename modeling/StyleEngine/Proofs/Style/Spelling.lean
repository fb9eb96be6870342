import StyleEngine.Proofs.Declaration.Group
import StyleEngine.Proofs.Style.Same
import StyleEngine.Proofs.Style.Texts

/-!
# Spellings of a property

A property of CSS can be spelled in several ways, and normalizing hides which. What is declared for it comes from the
declarations that are written under one of its spellings, in their order (`renderDeclarations_spelled`); a description
is refused for a value if and only if one that is written is refused (`exists_renderDeclarations_iff`).
-/

namespace StyleEngine.Description

variable {entries : List (String × Value)} {ds : List Declaration} {name p : String} {value : Value}

/-- The declarations that normalizing writes: those whose value is not falsy. -/
def written (entries : List (String × Value)) : List (String × Value) := entries.filter fun e => !e.2.isFalsy

/-- The written declarations of one property of CSS, under whatever spelling. -/
def spelled (p : String) (entries : List (String × Value)) : List (String × Value) :=
  (written entries).filter fun e => Property.hyphenate e.1 == p

theorem mem_written {e : String × Value} : e ∈ written entries ↔ e ∈ entries ∧ e.2.isFalsy = false := by
  rw [written, List.mem_filter, Bool.not_eq_true']

theorem written_append (first second : List (String × Value)) :
    written (first ++ second) = written first ++ written second :=
  List.filter_append ..

theorem spelled_append (p : String) (first second : List (String × Value)) :
    spelled p (first ++ second) = spelled p first ++ spelled p second := by
  rw [spelled, written_append, List.filter_append]
  rfl

theorem spelled_cons (e : String × Value) (rest : List (String × Value)) :
    spelled p (e :: rest) =
      (if e.2.isFalsy = false ∧ Property.hyphenate e.1 = p then [e] else []) ++ spelled p rest := by
  rw [← List.singleton_append, spelled_append]
  congr 1
  by_cases hfalsy : e.2.isFalsy = true <;> by_cases hp : Property.hyphenate e.1 = p <;>
    simp [spelled, written, hfalsy, hp]

theorem renderEntry_of_falsy (h : value.isFalsy = true) : renderEntry name value = .ok [] := by
  rw [renderEntry, if_pos h]

/-- An entry declares one property. -/
theorem property_of_renderEntry (h : renderEntry name value = .ok ds) :
    ∀ d ∈ ds, d.property = Property.hyphenate name := by
  rw [renderEntry] at h
  split at h
  · obtain rfl := Except.ok.inj h
    exact fun _ hd => absurd hd List.not_mem_nil
  · rw [renderValues_eq_map] at h
    obtain ⟨texts, -, rfl⟩ := ok_of_map_ok h
    intro d hd
    obtain ⟨text, -, rfl⟩ := List.mem_map.mp hd
    rfl

theorem renderDeclarations_cons_ok {rest : List (String × Value)}
    (h : renderDeclarations ((name, value) :: rest) = .ok ds) :
    ∃ own others, renderEntry name value = .ok own ∧ renderDeclarations rest = .ok others ∧ ds = own ++ others := by
  rw [renderDeclarations] at h
  split at h
  · cases h
  · next own hown =>
    obtain ⟨others, hrest, rfl⟩ := ok_of_map_ok h
    exact ⟨own, others, hown, hrest, rfl⟩

theorem renderDeclarations_of_entry {own others : List Declaration} {rest : List (String × Value)}
    (hown : renderEntry name value = .ok own) (hrest : renderDeclarations rest = .ok others) :
    renderDeclarations ((name, value) :: rest) = .ok (own ++ others) := by
  rw [renderDeclarations, hown]
  exact congrArg (Except.map _) hrest

/-- What is declared for a property is what its spellings declare. -/
theorem renderDeclarations_spelled (p : String) (h : renderDeclarations entries = .ok ds) :
    renderDeclarations (spelled p entries) = .ok (Declaration.group p ds) := by
  induction entries generalizing ds with
  | nil =>
    obtain rfl := Except.ok.inj h
    rfl
  | cons e rest ih =>
    obtain ⟨name, value⟩ := e
    obtain ⟨own, others, hown, hrest, rfl⟩ := renderDeclarations_cons_ok h
    have hothers := ih hrest
    rw [Declaration.group_append, spelled_cons]
    split
    · next hwritten =>
      have hall : Declaration.group p own = own :=
        List.filter_eq_self.mpr fun d hd => by simp [property_of_renderEntry hown d hd, hwritten.2]
      rw [hall]
      exact renderDeclarations_of_entry hown hothers
    · next hnot =>
      have hnone : Declaration.group p own = [] := by
        refine Declaration.group_eq_nil_iff.mpr fun d hd hp => hnot ⟨?_, (property_of_renderEntry hown d hd) ▸ hp⟩
        -- a falsy value declares nothing
        refine Bool.eq_false_iff.mpr fun hfalsy => ?_
        obtain rfl := Except.ok.inj ((renderEntry_of_falsy hfalsy).symm.trans hown)
        exact List.not_mem_nil hd
      rw [hnone]
      exact hothers

/-- Declarations are written if and only if each of them is. -/
theorem exists_renderDeclarations_iff :
    (∃ ds, renderDeclarations entries = .ok ds) ↔
      ∀ e ∈ written entries, ∃ own, renderEntry e.1 e.2 = .ok own := by
  induction entries with
  | nil => exact ⟨fun _ _ he => absurd he List.not_mem_nil, fun _ => ⟨[], rfl⟩⟩
  | cons e rest ih =>
    obtain ⟨name, value⟩ := e
    constructor
    · rintro ⟨ds, h⟩ e he
      obtain ⟨own, others, hown, hrest, -⟩ := renderDeclarations_cons_ok h
      obtain ⟨hmem, hfalsy⟩ := mem_written.mp he
      rcases List.mem_cons.mp hmem with rfl | hmem
      · exact ⟨own, hown⟩
      · exact ih.mp ⟨others, hrest⟩ e (mem_written.mpr ⟨hmem, hfalsy⟩)
    · intro h
      obtain ⟨others, hrest⟩ := ih.mpr fun e he =>
        h e (mem_written.mpr ((mem_written.mp he).imp_left (List.mem_cons_of_mem _)))
      have hown : ∃ own, renderEntry name value = .ok own := by
        cases hfalsy : value.isFalsy with
        | true => exact ⟨[], renderEntry_of_falsy hfalsy⟩
        | false => exact h (name, value) (mem_written.mpr ⟨List.mem_cons_self, hfalsy⟩)
      obtain ⟨own, hown⟩ := hown
      exact ⟨own ++ others, renderDeclarations_of_entry hown hrest⟩

end StyleEngine.Description
