import StyleEngine.Proofs.Selector.Root

/-!
# Identifiers without escapes

A text is its own identifier when it consists of name characters, does not begin like a number and is no lone
dash (`identChars_eq_self_iff`). In every other text something is escaped.
-/

namespace StyleEngine.Text

/-- Name characters only, and no digit in front, also not behind a dash there. -/
structure Plain (cs : List Char) : Prop where
  chars : ∀ c ∈ cs, isNameChar c = true
  start : ∀ c rest, cs = c :: rest ∨ cs = '-' :: c :: rest → c.isDigit = false

variable {c : Char} {cs : List Char}

theorem one_le_length_nameChar (c : Char) : 1 ≤ (nameChar c).length := by
  unfold nameChar
  split
  · exact Nat.le_refl 1
  · split
    · exact Nat.le_refl 1
    · split
      · simp [escapeHex]
      · simp

theorem length_le_nameChars (cs : List Char) : cs.length ≤ (nameChars cs).length := by
  induction cs with
  | nil => exact Nat.le_refl 0
  | cons c rest ih =>
    have hc := one_le_length_nameChar c
    rw [nameChars, List.flatMap_cons, List.length_append, List.length_cons]
    change rest.length ≤ (rest.flatMap nameChar).length at ih
    omega

/-- Only a name character is written as one character that is itself. -/
theorem isNameChar_of_nameChar (h : nameChar c = [c]) : isNameChar c = true := by
  unfold nameChar at h
  split at h
  · next hname => exact hname
  · split at h
    · next hnul =>
      subst hnul
      exact absurd h (by decide)
    · split at h
      · simp [escapeHex] at h
      · simp at h

theorem nameChars_eq_self_iff : nameChars cs = cs ↔ ∀ c ∈ cs, isNameChar c = true := by
  refine ⟨fun h => ?_, Selector.nameChars_of_isNameChar⟩
  induction cs with
  | nil => exact fun _ hc => absurd hc List.not_mem_nil
  | cons c rest ih =>
    have hsplit : nameChar c ++ nameChars rest = [c] ++ rest := h
    -- an escape would make the text longer, and what follows it never makes up for that
    have hlength : (nameChar c).length = [c].length := by
      have hrest := length_le_nameChars rest
      have hone := one_le_length_nameChar c
      have htotal := congrArg List.length hsplit
      rw [List.length_append, List.length_append] at htotal
      simp only [List.length_singleton] at htotal ⊢
      omega
    obtain ⟨hc, hrest⟩ := List.append_inj hsplit hlength
    exact List.forall_mem_cons.mpr ⟨isNameChar_of_nameChar hc, ih hrest⟩

theorem escapeHex_append_ne (hc : c.isDigit = true) (rest rest' : List Char) :
    escapeHex c ++ rest ≠ c :: rest' := by
  intro h
  rw [escapeHex, List.cons_append] at h
  rw [← (List.cons.inj h).1] at hc
  exact absurd hc (by decide)

theorem identStart_eq_self_iff :
    identStart cs = cs ↔ (∀ c ∈ cs, isNameChar c = true) ∧ ∀ c rest, cs = c :: rest → c.isDigit = false := by
  cases cs with
  | nil => exact ⟨fun _ => ⟨fun _ hc => absurd hc List.not_mem_nil, fun _ _ h => nomatch h⟩, fun _ => rfl⟩
  | cons c rest =>
    rw [identStart]
    split
    · next hdigit =>
      refine ⟨fun h => absurd h (escapeHex_append_ne hdigit _ _), fun h => ?_⟩
      rw [h.2 c rest rfl] at hdigit
      cases hdigit
    · next hdigit =>
      rw [nameChars_eq_self_iff]
      refine ⟨fun h => ⟨h, ?_⟩, And.left⟩
      rintro d tail he
      obtain ⟨rfl, -⟩ := List.cons.inj he
      simpa using hdigit

/-- The texts in which an identifier has nothing to escape. -/
theorem identChars_eq_self_iff : identChars cs = cs ↔ Plain cs ∧ cs ≠ ['-'] := by
  have hdash : isNameChar '-' = true := by decide
  cases cs with
  | nil =>
    refine ⟨fun _ => ⟨⟨fun _ hc => absurd hc List.not_mem_nil, ?_⟩, nofun⟩, fun _ => rfl⟩
    rintro c rest (h | h) <;> cases h
  | cons c rest =>
    by_cases hc : c = '-'
    · subst hc
      cases rest with
      | nil => exact ⟨fun h => absurd h (by decide), fun h => absurd rfl h.2⟩
      | cons d rest =>
        by_cases hd : d = '-'
        · -- two dashes are never escaped
          subst hd
          have hident : identChars ('-' :: '-' :: rest) = '-' :: '-' :: nameChars rest := rfl
          rw [hident, List.cons_inj_right, List.cons_inj_right, nameChars_eq_self_iff]
          constructor
          · intro h
            refine ⟨⟨by simpa [hdash] using h, ?_⟩, by simp⟩
            rintro c tail (he | he)
            · rw [← (List.cons.inj he).1]
              decide
            · rw [← (List.cons.inj (List.cons.inj he).2).1]
              decide
          · intro h c hm
            exact h.1.chars c (List.mem_cons_of_mem _ (List.mem_cons_of_mem _ hm))
        · rw [Selector.identChars_dash hd, List.cons_inj_right, identStart_eq_self_iff]
          constructor
          · rintro ⟨hchars, hstart⟩
            refine ⟨⟨List.forall_mem_cons.mpr ⟨hdash, hchars⟩, ?_⟩, by simp⟩
            rintro c tail (he | he)
            · rw [← (List.cons.inj he).1]
              decide
            · exact hstart c tail (List.cons.inj he).2
          · rintro ⟨hplain, -⟩
            exact ⟨fun c hm => hplain.chars c (List.mem_cons_of_mem _ hm),
              fun c tail he => hplain.start c tail (.inr (by rw [he]))⟩
    · rw [Selector.identChars_of_ne hc, identStart_eq_self_iff]
      constructor
      · rintro ⟨hchars, hstart⟩
        refine ⟨⟨hchars, ?_⟩, fun he => hc (List.cons.inj he).1⟩
        rintro d tail (he | he)
        · exact hstart d tail he
        · exact absurd (List.cons.inj he).1 hc
      · rintro ⟨hplain, -⟩
        exact ⟨hplain.chars, fun d tail he => hplain.start d tail (.inl he)⟩

/-- An underscore keeps what follows it from the start of a name. -/
theorem plain_append_iff (front back : List Char) :
    Plain (front ++ '_' :: back) ↔ Plain front ∧ ∀ c ∈ back, isNameChar c = true := by
  constructor
  · rintro ⟨hchars, hstart⟩
    refine ⟨⟨fun c hc => hchars c (List.mem_append_left _ hc), fun c rest h => ?_⟩,
      fun c hc => hchars c (List.mem_append_right _ (List.mem_cons_of_mem _ hc))⟩
    refine hstart c (rest ++ '_' :: back) ?_
    rcases h with rfl | rfl
    · exact .inl rfl
    · exact .inr rfl
  · rintro ⟨⟨hchars, hstart⟩, hback⟩
    refine ⟨fun c hc => ?_, fun c rest h => ?_⟩
    · rcases List.mem_append.mp hc with hc | hc
      · exact hchars c hc
      · rcases List.mem_cons.mp hc with rfl | hc
        · decide
        · exact hback c hc
    · rcases h with h | h
      · cases front with
        | nil =>
          rw [← (List.cons.inj h).1]
          decide
        | cons d front =>
          rw [← (List.cons.inj h).1]
          exact hstart d front (.inl rfl)
      · match front with
        | [] => exact absurd (List.cons.inj h).1 (by decide)
        | [d] =>
          rw [← (List.cons.inj (List.cons.inj h).2).1]
          decide
        | d :: e :: front =>
          obtain ⟨rfl, htail⟩ := List.cons.inj h
          rw [← (List.cons.inj htail).1]
          exact hstart e front (.inr rfl)

end StyleEngine.Text
