import StyleEngine.Proofs.Text.Chars

/-!
# Text in braces

A body with balanced braces ends where the brace that opened it is closed, whatever follows. So a
text that is a head, a body in braces and a rest is read in one way only (`head_body_rest_inj`).
-/

namespace StyleEngine

/-- The characters that neither open nor close a block. -/
def Unbraced (c : Char) : Prop := c ≠ '{' ∧ c ≠ '}'

instance : DecidablePred Unbraced := fun c => inferInstanceAs (Decidable (c ≠ '{' ∧ c ≠ '}'))

/-- Texts in which every brace has its partner. -/
inductive Balanced : List Char → Prop
  | flat {cs : List Char} (h : ∀ c ∈ cs, Unbraced c) : Balanced cs
  | block {head body rest : List Char} (hh : ∀ c ∈ head, Unbraced c) (hb : Balanced body)
      (hr : Balanced rest) : Balanced (head ++ '{' :: (body ++ '}' :: rest))

namespace Balanced

/-- The depth after one more character inside a block. -/
def level (depth : Nat) (c : Char) : Nat :=
  if c = '{' then depth + 1 else if c = '}' then depth - 1 else depth

/-- The text up to the brace that closes the block at depth 0, and the text after it. -/
def close : Nat → List Char → List Char × List Char
  | _, [] => ([], [])
  | depth, c :: rest =>
    if c = '}' ∧ depth = 0 then ([], rest)
    else (c :: (close (level depth c) rest).1, (close (level depth c) rest).2)

theorem close_flat {cs : List Char} (h : ∀ c ∈ cs, Unbraced c) (depth : Nat) (rest : List Char) :
    close depth (cs ++ rest) = (cs ++ (close depth rest).1, (close depth rest).2) := by
  induction cs with
  | nil => rfl
  | cons c cs ih =>
    have hc : Unbraced c := h c List.mem_cons_self
    have hlevel : level depth c = depth := by rw [level, if_neg hc.1, if_neg hc.2]
    rw [List.cons_append, close, if_neg fun e => hc.2 e.1, hlevel, ih fun d hd => h d (List.mem_cons_of_mem _ hd)]
    rfl

/-- A balanced text closes nothing that was open before it. -/
theorem close_append {body : List Char} (h : Balanced body) (depth : Nat) (rest : List Char) :
    close depth (body ++ rest) = (body ++ (close depth rest).1, (close depth rest).2) := by
  induction h generalizing depth rest with
  | flat h => exact close_flat h depth rest
  | @block head body tail hh _ _ ihb ihr =>
    have hopen : ∀ cs, close depth ('{' :: cs) = ('{' :: (close (depth + 1) cs).1, (close (depth + 1) cs).2) :=
      fun cs => by rw [close, if_neg (by simp)]; rfl
    have hclose : ∀ cs, close (depth + 1) ('}' :: cs) = ('}' :: (close depth cs).1, (close depth cs).2) :=
      fun cs => by rw [close, if_neg (by omega)]; rfl
    rw [List.append_assoc, close_flat hh, List.cons_append, hopen, List.append_assoc, ihb,
      List.cons_append, hclose, ihr]
    simp

theorem close_zero {body : List Char} (h : Balanced body) (rest : List Char) :
    close 0 (body ++ '}' :: rest) = (body, rest) := by
  rw [h.close_append, close, if_pos ⟨rfl, rfl⟩]
  simp

theorem append {a b : List Char} (ha : Balanced a) (hb : Balanced b) : Balanced (a ++ b) := by
  induction ha with
  | @flat cs h =>
    cases hb with
    | flat h' =>
      refine .flat fun c hc => ?_
      rcases List.mem_append.mp hc with hc | hc
      · exact h c hc
      · exact h' c hc
    | @block head body rest hh hbody hr =>
      rw [← List.append_assoc]
      refine .block (fun c hc => ?_) hbody hr
      rcases List.mem_append.mp hc with hc | hc
      · exact h c hc
      · exact hh c hc
  | @block head body rest hh hbody _ _ ih =>
    rw [List.append_assoc, List.cons_append, List.append_assoc, List.cons_append]
    exact .block hh hbody ih

end Balanced

/-- A head without braces and a balanced body are told from the text that they begin. -/
theorem head_body_rest_inj {head head' body body' rest rest' : List Char} (hh : ∀ c ∈ head, Unbraced c)
    (hh' : ∀ c ∈ head', Unbraced c) (hb : Balanced body) (hb' : Balanced body')
    (h : head ++ '{' :: (body ++ '}' :: rest) = head' ++ '{' :: (body' ++ '}' :: rest')) :
    head = head' ∧ body = body' ∧ rest = rest' := by
  have hopen : '{' ∉ head := fun hm => (hh _ hm).1 rfl
  have hopen' : '{' ∉ head' := fun hm => (hh' _ hm).1 rfl
  obtain ⟨rfl, htail⟩ := first_halves_eq hopen hopen' h
  have hclose := congrArg (Balanced.close 0) htail
  rw [hb.close_zero, hb'.close_zero] at hclose
  exact ⟨rfl, (Prod.mk.inj hclose).1, (Prod.mk.inj hclose).2⟩

end StyleEngine
