import StyleEngine.Proofs.Selector.Parts

/-!
# Cutting a list that was joined

The parts of any list are joined and cut again. No scan is left in quotes or brackets between two parts, so each
comma that joins cuts again, but for one case: trimming has taken an escaped blank away, and the backslash that is
left escapes the comma. Then the part comes back glued to the one behind it (`pieces_joinTrimmed`). So the parts
come back exactly when this happens to none but the last (`split_joinList_split_iff`).
-/

namespace StyleEngine.Selector

variable {s : Scan} {cs p : List Char} {ps : List (List Char)}

/-! ## Pieces -/

/-- No cut falls into the text. -/
def Unbroken (s : Scan) (cs : List Char) : Prop := Throughout (fun s c => s.cutsAt c = false) s cs

theorem pieces_append_of_unbroken (h : Unbroken s cs) (rest : List Char) :
    pieces s (cs ++ rest) = (pieces (s.run cs) rest).modifyHead (cs ++ ·) := by
  induction cs generalizing s with
  | nil =>
    obtain ⟨p, ps, hps⟩ := List.exists_cons_of_ne_nil (pieces_ne_nil s rest)
    show pieces s rest = (pieces s rest).modifyHead _
    rw [hps]
    rfl
  | cons c cs ih =>
    have hrun : s.run (c :: cs) = (s.step c).run cs := rfl
    rw [List.cons_append, pieces, h.1, ih h.2, hrun]
    simp [List.modifyHead_modifyHead, Function.comp_def]

/-- Pieces of a text: none is broken, and each but the last leaves the scan as it was at the start. -/
inductive Cut : Scan → List (List Char) → Prop
  | last {s : Scan} {p : List Char} (h : Unbroken s p) : Cut s [p]
  | cons {s : Scan} {p : List Char} {ps : List (List Char)} (h : Unbroken s p) (hend : s.run p = {})
      (hps : Cut {} ps) : Cut s (p :: ps)

theorem Cut.modifyHead {c : Char} (h : Cut (s.step c) ps) (hc : s.cutsAt c = false) :
    Cut s (ps.modifyHead (c :: ·)) := by
  cases h with
  | last h => exact .last ⟨hc, h⟩
  | cons h hend hps => exact .cons ⟨hc, h⟩ hend hps

theorem cut_pieces (s : Scan) (cs : List Char) : Cut s (pieces s cs) := by
  induction cs generalizing s with
  | nil => exact .last trivial
  | cons c rest ih =>
    rw [pieces]
    cases hcut : s.cutsAt c with
    | false => exact (ih (s.step c)).modifyHead hcut
    | true =>
      obtain ⟨rfl, rfl⟩ := Scan.start_of_cutsAt hcut
      exact .cons trivial rfl (ih {})

/-! ## Joining -/

/-- What is joined when the pieces are cut out. -/
def joinTrimmed (ps : List (List Char)) : String :=
  joinList (ps.map fun p => String.ofList (Text.trimChars p))

/-- The trimmed pieces. One that ends with an escape pending takes the comma and the next one in. -/
def glue : List (List Char) → List (List Char)
  | [] => []
  | [p] => [Text.trimChars p]
  | p :: q :: rest =>
    if trimsEscaped p then (glue (q :: rest)).modifyHead (Text.trimChars p ++ ',' :: ·)
    else Text.trimChars p :: glue (q :: rest)

theorem pieces_comma (escaped : Bool) (rest : List Char) :
    pieces { escaped } (',' :: rest) =
      if escaped then (pieces {} rest).modifyHead (',' :: ·) else [] :: pieces {} rest := by
  cases escaped <;> rfl

theorem pieces_joinTrimmed (h : Cut {} ps) : pieces {} (joinTrimmed ps).toList = glue ps := by
  induction ps with
  | nil => cases h
  | cons p rest ih =>
    cases rest with
    | nil =>
      have hp : Unbroken {} p := by cases h <;> assumption
      have hpieces := pieces_append_of_unbroken hp.trimChars []
      rw [List.append_nil] at hpieces
      simpa [joinTrimmed, joinList, glue, pieces] using hpieces
    | cons q rest =>
      obtain ⟨hp, hend, hrest⟩ : Unbroken {} p ∧ Scan.run {} p = {} ∧ Cut {} (q :: rest) := by
        cases h with
        | cons hp hend hrest => exact ⟨hp, hend, hrest⟩
      have hjoin : (joinTrimmed (p :: q :: rest)).toList =
          Text.trimChars p ++ ',' :: (joinTrimmed (q :: rest)).toList := by
        simp only [joinTrimmed, List.map_cons, toList_joinList_cons, String.toList_ofList]
      rw [hjoin, pieces_append_of_unbroken hp.trimChars, run_trimChars hend, pieces_comma, ih hrest, glue]
      split
      · simp [List.modifyHead_modifyHead, Function.comp_def]
      · simp

/-- Each piece that takes the next one in makes one less. -/
theorem length_glue (ps : List (List Char)) :
    (glue ps).length + ps.dropLast.countP trimsEscaped = ps.length := by
  induction ps with
  | nil => rfl
  | cons p rest ih =>
    cases rest with
    | nil => rfl
    | cons q rest =>
      rw [List.dropLast_cons_cons, glue, List.countP_cons, List.length_cons (a := p), ← ih]
      cases trimsEscaped p with
      | true => simp [Nat.add_assoc]
      | false => simp [Nat.add_right_comm]

theorem glue_of_forall (h : ∀ p ∈ ps.dropLast, trimsEscaped p = false) : glue ps = ps.map Text.trimChars := by
  induction ps with
  | nil => rfl
  | cons p rest ih =>
    cases rest with
    | nil => rfl
    | cons q rest =>
      rw [List.dropLast_cons_cons] at h
      obtain ⟨hp, hrest⟩ := List.forall_mem_cons.mp h
      rw [glue, hp, if_neg Bool.false_ne_true, ih hrest]
      rfl

/-- Cutting a joined list gives the same parts again if and only if trimming takes an escaped blank from no part,
the last one apart. -/
theorem split_joinList_split_iff (selector : String) :
    split (joinList (split selector)) = split selector ↔
      ∀ p ∈ (pieces {} selector.toList).dropLast, trimsEscaped p = false := by
  have hpieces := pieces_joinTrimmed (cut_pieces {} selector.toList)
  have hsplit : split (joinList (split selector)) =
      (glue (pieces {} selector.toList)).map fun p => String.ofList (Text.trimChars p) :=
    congrArg (List.map fun p => String.ofList (Text.trimChars p)) hpieces
  rw [hsplit]
  constructor
  · intro h p hp
    have hlength := congrArg List.length h
    rw [split, List.length_map, List.length_map] at hlength
    have hnone := length_glue (pieces {} selector.toList)
    rw [hlength] at hnone
    have hcount : (pieces {} selector.toList).dropLast.countP trimsEscaped = 0 := by omega
    exact Bool.eq_false_iff.mpr (List.countP_eq_zero.mp hcount p hp)
  · intro h
    rw [glue_of_forall h, List.map_map, split]
    refine List.map_congr_left fun p _ => ?_
    show String.ofList (Text.trimChars (Text.trimChars p)) = _
    rw [Text.trimChars_trimChars]

/-- The escaped blank of the first part is trimmed away. The backslash that is left joins both parts, and a key below
them is composed with one part instead of two. -/
theorem escaped_blank_joins_parts :
    split "a\\ ,b" = ["a\\", "b"] ∧ split (joinList (split "a\\ ,b")) = ["a\\,b"] ∧
    split (joinList (split "a\\ ,b")) ≠ split "a\\ ,b" ∧
    compose (compose "a\\ ,b" "&") "&:hover" = "a\\,b:hover" := by
  decide

end StyleEngine.Selector
