import Mathlib
import StyleEngine.Proofs.Selector.Parts

/-!
# Counting the parent

How often a selector mentions its parent. Cutting a list and trimming its parts keep the number, whatever the text
is, so composing multiplies it: each part of the key counts by its own `&`, or once if it has none
(`ampersands_compose`).
-/

namespace StyleEngine.Selector

variable {p k : String} {cs parent : List Char}

/-- How often a selector mentions its parent. -/
def ampersands (selector : String) : Nat := selector.toList.count '&'

/-- What a key multiplies the number of `&` by. -/
def branching (key : String) : Nat := ((split key).map fun part => max 1 (ampersands part)).sum

theorem count_fill (parent cs : List Char) : (fill parent cs).count '&' = parent.count '&' * cs.count '&' := by
  induction cs with
  | nil => rfl
  | cons c rest ih =>
    rw [← List.singleton_append, fill_append, List.count_append, List.count_append, ih, Nat.mul_add]
    by_cases hc : c = '&'
    · simp [fill, hc]
    · simp [fill, hc]

theorem ampersands_attach (p k : String) : ampersands (attach p k) = ampersands p * max 1 (ampersands k) := by
  have hchild : (withParent k.toList).count '&' = max 1 (k.toList.count '&') := by
    unfold withParent
    split
    · next hm => exact (Nat.max_eq_right (List.count_pos_iff.mpr hm)).symm
    · next hm => simp [List.count_eq_zero.mpr hm]
  rw [ampersands, toList_attach, count_fill, hchild]
  rfl

/-- Cutting keeps every `&`. -/
theorem sum_count_pieces (s : Scan) (cs : List Char) : ((pieces s cs).map (List.count '&')).sum = cs.count '&' := by
  induction cs generalizing s with
  | nil => rfl
  | cons c rest ih =>
    rw [pieces, List.count_cons, ← ih (s.step c)]
    cases hcut : s.cutsAt c with
    | true =>
      simp [(Scan.start_of_cutsAt hcut).2]
    | false =>
      obtain ⟨q, qs, hq⟩ := List.exists_cons_of_ne_nil (pieces_ne_nil (s.step c) rest)
      rw [hq]
      simp only [Bool.false_eq_true, if_false, List.modifyHead_cons, List.map_cons, List.sum_cons, List.count_cons]
      omega

/-- Trimming keeps every `&`. -/
theorem count_trimChars (cs : List Char) : (Text.trimChars cs).count '&' = cs.count '&' := by
  obtain ⟨front, back, hcs, hfront, hback⟩ := Text.exists_blanks_trimChars cs
  have hblanks : ∀ l : List Char, (∀ c ∈ l, Text.isBlank c = true) → l.count '&' = 0 := by
    intro l hl
    refine List.count_eq_zero.mpr fun hm => ?_
    have hamp := hl '&' hm
    revert hamp
    decide
  conv_rhs => rw [hcs, List.count_append, List.count_append, hblanks front hfront, hblanks back hback]
  omega

theorem sum_ampersands_split (selector : String) : ((split selector).map ampersands).sum = ampersands selector := by
  rw [ampersands, ← sum_count_pieces {} selector.toList, split, List.map_map]
  refine congrArg List.sum (List.map_congr_left fun part _ => ?_)
  show (String.ofList (Text.trimChars part)).toList.count '&' = part.count '&'
  rw [String.toList_ofList, count_trimChars]

theorem ampersands_joinList (parts : List String) : ampersands (joinList parts) = (parts.map ampersands).sum := by
  induction parts with
  | nil => rfl
  | cons part rest ih =>
    cases rest with
    | nil => simp [joinList]
    | cons next rest =>
      rw [List.map_cons, List.sum_cons, ← ih, ampersands, toList_joinList_cons, List.count_append]
      rfl

/-- Composing multiplies the number of `&`, whatever the texts are. -/
theorem ampersands_compose (p k : String) : ampersands (compose p k) = ampersands p * branching k := by
  have hparent : ∀ parent, (((split k).map (attach parent)).map ampersands).sum = ampersands parent * branching k := by
    intro parent
    rw [List.map_map, branching, ← List.sum_map_mul_left]
    exact congrArg List.sum (List.map_congr_left fun part _ => ampersands_attach parent part)
  calc
    ampersands (compose p k)
    _ = ((split p).map fun parent => (((split k).map (attach parent)).map ampersands).sum).sum := by
      rw [compose, ampersands_joinList, List.map_flatMap, List.flatMap_def, List.sum_flatten, List.map_map]
      rfl
    _ = ((split p).map fun parent => ampersands parent * branching k).sum := by simp only [hparent]
    _ = ampersands p * branching k := by rw [List.sum_map_mul_right, sum_ampersands_split]

/-- The selector under which what a key nests is flattened. -/
def below (root key : String) : String := if isAtRule key then root else compose root key

/-- An at-rule multiplies by nothing. -/
def keyFactor (key : String) : Nat := if isAtRule key then 1 else branching key

theorem ampersands_below (root key : String) : ampersands (below root key) = ampersands root * keyFactor key := by
  unfold below keyFactor
  split
  · exact (Nat.mul_one _).symm
  · exact ampersands_compose root key

end StyleEngine.Selector
