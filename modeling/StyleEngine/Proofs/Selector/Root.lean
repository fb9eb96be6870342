import StyleEngine.Proofs.Registry.Run
import StyleEngine.Proofs.Selector.Compose

/-!
# Class selectors

The selector of a class is a dot and an identifier. In an identifier everything that a scan could
trip over is escaped, so a scan leaves it in the state in which it came (`Inert`), and the selector
of a generated name is a `Solid` root, whatever the debug name is.
-/

namespace StyleEngine

namespace Selector

/-- A character that no scan takes notice of. -/
def Plain (c : Char) : Prop := c ∉ ['\\', '"', '\'', '(', '[', ')', ']', ',']

instance (c : Char) : Decidable (Plain c) := inferInstanceAs (Decidable (c ∉ _))

/-- A text that an unescaped scan passes without a cut, ending where it began. -/
def Inert (cs : List Char) : Prop :=
  ∀ s : Scan, s.Proper → s.escaped = false → ∀ rest,
    pieces s (cs ++ rest) = (pieces s rest).modifyHead (cs ++ ·)

theorem Scan.cutsAt_plain {c : Char} (hc : Plain c) (s : Scan) : s.cutsAt c = false := by
  have hne : c ≠ ',' := fun e => hc (by simp [e])
  simp [Scan.cutsAt, hne]

theorem Scan.step_plain {c : Char} (hc : Plain c) {s : Scan} (hs : s.Proper)
    (he : s.escaped = false) : s.step c = s := by
  simp only [Plain, List.mem_cons, List.not_mem_nil, not_or] at hc
  obtain ⟨h₁, h₂, h₃, h₄, h₅, h₆, h₇, h₈, -⟩ := hc
  unfold Scan.step
  rw [if_neg (by simp [he]), if_neg h₁]
  split
  · next q hq =>
    rcases hs q hq with rfl | rfl
    · rw [if_neg h₂]
    · rw [if_neg h₃]
  · rw [if_neg (by simp [h₂, h₃]), if_neg (by simp [h₄, h₅]), if_neg (by simp [h₆, h₇])]

theorem inert_nil : Inert [] := by
  intro s _ _ rest
  cases h : pieces s rest with
  | nil => rw [List.nil_append, h]; rfl
  | cons p ps => rw [List.nil_append, h]; rfl

theorem inert_append {a b : List Char} (ha : Inert a) (hb : Inert b) : Inert (a ++ b) := by
  intro s hs he rest
  rw [List.append_assoc, ha s hs he, hb s hs he, List.modifyHead_modifyHead]
  exact modifyHead_congr (fun p => (List.append_assoc a b p).symm) _

theorem inert_plain {c : Char} (hc : Plain c) : Inert [c] := by
  intro s hs he rest
  rw [List.cons_append, pieces, Scan.cutsAt_plain hc, Scan.step_plain hc hs he]
  rfl

/-- Whatever follows a backslash is passed. -/
theorem inert_escaped (c : Char) : Inert ['\\', c] := by
  intro s hs he rest
  have hcut : s.cutsAt '\\' = false := by simp [Scan.cutsAt]
  have hstep : s.step '\\' = { s with escaped := true } := by simp [Scan.step, he]
  have hcut' : Scan.cutsAt { s with escaped := true } c = false := by simp [Scan.cutsAt]
  have hstep' : Scan.step { s with escaped := true } c = s := by simp [Scan.step, ← he]
  rw [List.cons_append, List.cons_append, pieces, hcut, hstep, pieces, hcut', hstep']
  simp [List.modifyHead_modifyHead, Function.comp_def]

theorem inert_of_plain {cs : List Char} (h : ∀ c ∈ cs, Plain c) : Inert cs := by
  induction cs with
  | nil => exact inert_nil
  | cons c rest ih =>
    have hc : Inert [c] := inert_plain (h c List.mem_cons_self)
    exact inert_append hc (ih fun d hd => h d (List.mem_cons_of_mem _ hd))

/-! ## Identifiers -/

/-- Code points in hexadecimal are plain. -/
theorem plain_hex : ∀ n < 128, ∃ d ds, Nat.toDigits 16 n = d :: ds ∧ ∀ c ∈ ds, Plain c := by
  have h : ∀ n < 128, Nat.toDigits 16 n ≠ [] ∧ (Nat.toDigits 16 n).all (fun c => decide (Plain c)) := by
    decide
  intro n hn
  obtain ⟨hne, hall⟩ := h n hn
  have hp : ∀ c ∈ Nat.toDigits 16 n, Plain c := fun c hc => of_decide_eq_true (List.all_eq_true.mp hall c hc)
  obtain ⟨d, ds, he⟩ := List.exists_cons_of_ne_nil hne
  exact ⟨d, ds, he, fun c hc => hp c (he ▸ List.mem_cons_of_mem _ hc)⟩

theorem inert_escapeHex {c : Char} (hc : c.toNat < 128) : Inert (Text.escapeHex c) := by
  obtain ⟨d, ds, he, hp⟩ := plain_hex c.toNat hc
  have hrest : Inert (ds ++ [' ']) := by
    refine inert_of_plain fun e hm => ?_
    rcases List.mem_append.mp hm with hm | hm
    · exact hp e hm
    · rw [List.mem_singleton.mp hm]; decide
  rw [Text.escapeHex, he]
  exact inert_append (inert_escaped d) hrest

theorem plain_of_isNameChar {c : Char} (h : Text.isNameChar c = true) : Plain c := by
  intro hm
  have hall : ['\\', '"', '\'', '(', '[', ')', ']', ','].all (fun d => !Text.isNameChar d) = true := by
    decide
  have hc := List.all_eq_true.mp hall c hm
  rw [h] at hc
  cases hc

theorem toNat_lt_of_not_isNameChar {c : Char} (h : ¬ Text.isNameChar c = true) : c.toNat < 128 := by
  simp only [Text.isNameChar, Bool.or_eq_true, decide_eq_true_eq, not_or] at h
  have hv : ¬ (128 : Nat) ≤ c.val.toNat := h.2
  exact Nat.lt_of_not_le hv

theorem inert_nameChar (c : Char) : Inert (Text.nameChar c) := by
  unfold Text.nameChar
  split
  · next h => exact inert_plain (plain_of_isNameChar h)
  · next h =>
    split
    · exact inert_plain (by decide)
    · split
      · exact inert_escapeHex (toNat_lt_of_not_isNameChar h)
      · exact inert_escaped c

theorem inert_nameChars (cs : List Char) : Inert (Text.nameChars cs) := by
  induction cs with
  | nil => exact inert_nil
  | cons c rest ih => exact inert_append (inert_nameChar c) ih

theorem toNat_lt_of_isDigit {c : Char} (h : c.isDigit = true) : c.toNat < 128 := by
  simp only [Char.isDigit, Bool.and_eq_true, decide_eq_true_eq] at h
  have hv : c.val.toNat ≤ 57 := h.2
  exact Nat.lt_of_le_of_lt hv (by decide)

theorem inert_identStart (cs : List Char) : Inert (Text.identStart cs) := by
  unfold Text.identStart
  split
  · exact inert_nil
  · split
    · next h => exact inert_append (inert_escapeHex (toNat_lt_of_isDigit h)) (inert_nameChars _)
    · exact inert_nameChars _

theorem inert_identChars (cs : List Char) : Inert (Text.identChars cs) := by
  have hdash : Inert ['-'] := inert_plain (by decide)
  unfold Text.identChars
  split
  · exact inert_append (inert_append hdash hdash) (inert_nameChars _)
  · exact inert_escaped '-'
  · exact inert_append hdash (inert_identStart _)
  · exact inert_identStart _

/-! ## Generated names -/

theorem nameChars_append (a b : List Char) :
    Text.nameChars (a ++ b) = Text.nameChars a ++ Text.nameChars b :=
  List.flatMap_append

theorem nameChars_of_isNameChar {cs : List Char} (h : ∀ c ∈ cs, Text.isNameChar c = true) :
    Text.nameChars cs = cs := by
  induction cs with
  | nil => rfl
  | cons c rest ih =>
    have hc : Text.nameChar c = [c] := by rw [Text.nameChar, if_pos (h c List.mem_cons_self)]
    have ih : Text.nameChars rest = rest := ih fun d hd => h d (List.mem_cons_of_mem _ hd)
    rw [Text.nameChars, List.flatMap_cons, hc]
    exact congrArg (c :: ·) ih

theorem nameChars_append_letter (a t : List Char) :
    Text.nameChars (a ++ 'f' :: t) = (Text.nameChars a ++ ['f']) ++ Text.nameChars t := by
  have hf : Text.nameChars ('f' :: t) = ['f'] ++ Text.nameChars t := rfl
  rw [nameChars_append, hf, List.append_assoc]

/-- What follows a letter is written as inside a name. -/
theorem identStart_append (a t : List Char) :
    ∃ x, Text.identStart (a ++ 'f' :: t) = x ++ Text.nameChars t := by
  cases a with
  | nil => exact ⟨['f'], rfl⟩
  | cons c a =>
    rw [List.cons_append, Text.identStart]
    split
    · rw [nameChars_append_letter, ← List.append_assoc]
      exact ⟨_, rfl⟩
    · exact ⟨_, nameChars_append_letter (c :: a) t⟩

theorem identChars_of_ne {c : Char} (h : c ≠ '-') (cs : List Char) :
    Text.identChars (c :: cs) = Text.identStart (c :: cs) := by
  unfold Text.identChars
  split
  · next e => exact absurd (List.cons.inj e).1 h
  · next e => exact absurd (List.cons.inj e).1 h
  · next e => exact absurd (List.cons.inj e).1 h
  · rfl

theorem identChars_dash {d : Char} (h : d ≠ '-') (cs : List Char) :
    Text.identChars ('-' :: d :: cs) = '-' :: Text.identStart (d :: cs) := by
  unfold Text.identChars
  split
  · next e => exact absurd (List.cons.inj (List.cons.inj e).2).1 h
  · next e => cases e
  · next e => rw [← (List.cons.inj e).2]
  · next _ _ hn => exact absurd rfl (hn _)

theorem identChars_append (a t : List Char) :
    ∃ x, Text.identChars (a ++ 'f' :: t) = x ++ Text.nameChars t := by
  rcases a with _ | ⟨c, a⟩
  · exact identStart_append [] t
  by_cases hc : c = '-'
  · subst hc
    rcases a with _ | ⟨d, a⟩
    · obtain ⟨x, hx⟩ := identStart_append [] t
      exact ⟨'-' :: x, (identChars_dash (by decide) t).trans (congrArg ('-' :: ·) hx)⟩
    by_cases hd : d = '-'
    · subst hd
      exact ⟨'-' :: '-' :: (Text.nameChars a ++ ['f']), by
        rw [List.cons_append, List.cons_append, Text.identChars, nameChars_append_letter]; rfl⟩
    · obtain ⟨x, hx⟩ := identStart_append (d :: a) t
      exact ⟨'-' :: x, (identChars_dash hd _).trans (congrArg ('-' :: ·) hx)⟩
  · rw [List.cons_append, identChars_of_ne hc]
    exact identStart_append (c :: a) t

end Selector

namespace Text

theorem digit36_spec : ∀ n < 36, isNameChar (digit36 n) = true ∧ isBlank (digit36 n) = false := by
  decide

theorem digits36_ne_nil (k : Nat) {n : Nat} (h : n ≠ 0) : digits36 (k + 1) n ≠ [] := by
  rw [digits36, if_neg h]
  simp

/-- A hash is a text of at least one base 36 digit. -/
theorem hash_digits (s : String) : ∃ ds, ds ≠ [] ∧ (∀ d ∈ ds, d < 36) ∧ (hash s).toList = ds.map digit36 := by
  unfold hash base36
  split
  · exact ⟨[0], by simp, by simp, by decide⟩
  · next h =>
    have hn : (hash32 s).toNat ≠ 0 := fun e => h (UInt32.toNat_inj.mp e)
    exact ⟨_, digits36_ne_nil 6 hn, digits36_lt 7 _, by simp⟩

/-- What holds of the digits holds of every hash. -/
theorem allChars_hash {p : Char → Prop} (h : ∀ n < 36, p (digit36 n)) (s : String) : AllChars p (hash s) := by
  obtain ⟨ds, -, hlt, hds⟩ := hash_digits s
  intro c hc
  rw [hds] at hc
  obtain ⟨d, hd, rfl⟩ := List.mem_map.mp hc
  exact h d (hlt d hd)

end Text

namespace Registry

theorem toList_generatedName (debugName? : Option String) (hash : String) :
    ∃ a, (generatedName debugName? hash).toList = a ++ 'f' :: hash.toList := by
  cases debugName? with
  | none => exact ⟨[], by simp [generatedName]⟩
  | some name => exact ⟨name.toList ++ ['_'], by simp [generatedName]⟩

theorem toList_root (style : NormalStyle) :
    (root style).toList = '.' :: Text.identChars (className style).toList := by
  simp [root, Selector.ofClass, Text.identifier]

theorem solid_root (style : NormalStyle) : Selector.Solid (root style).toList := by
  rw [toList_root]
  refine ⟨fun s hs rest => ?_, ⟨'.', _, rfl, by decide⟩, ?_⟩
  · have hinert := Selector.inert_identChars (className style).toList
    -- a dot and an ampersand take the scan to the same state, and it is not escaped
    have hstep : s.step '.' = s.step '&' ∧ (s.step '&').escaped = false := by
      cases he : s.escaped with
      | true => simp [Selector.Scan.step, he]
      | false =>
        rw [Selector.Scan.step_plain (by decide) hs he, Selector.Scan.step_plain (by decide) hs he]
        exact ⟨rfl, he⟩
    rw [List.cons_append, Selector.pieces, Selector.Scan.cutsAt_plain (by decide), hstep.1,
      hinert _ (hs.step _) hstep.2]
    simp [List.modifyHead_modifyHead, Function.comp_def]
  · obtain ⟨a, ha⟩ := toList_generatedName style.debugName? (Text.hash (hashText style))
    obtain ⟨ds, hne, hlt, hds⟩ := Text.hash_digits (hashText style)
    have hname : ∀ c ∈ (Text.hash (hashText style)).toList,
        Text.isNameChar c = true ∧ Text.isBlank c = false := by
      intro c hc
      rw [hds] at hc
      obtain ⟨d, hd, rfl⟩ := List.mem_map.mp hc
      exact Text.digit36_spec d (hlt d hd)
    have hnil : (Text.hash (hashText style)).toList ≠ [] := by rw [hds]; simpa using hne
    obtain ⟨x, hx⟩ := Selector.identChars_append a (Text.hash (hashText style)).toList
    rw [Selector.nameChars_of_isNameChar fun c hc => (hname c hc).1] at hx
    refine ⟨(Text.hash (hashText style)).toList.getLast hnil,
      '.' :: (x ++ (Text.hash (hashText style)).toList.dropLast), ?_, (hname _ (List.getLast_mem hnil)).2⟩
    rw [className, ha, hx, List.cons_append, List.append_assoc, List.dropLast_concat_getLast]

/-! ## Separators -/

theorem unseparated_hex : ∀ n < 128, ∀ d ∈ Nat.toDigits 16 n, Unseparated d := by
  have h : ∀ n < 128, (Nat.toDigits 16 n).all (fun d => decide (Unseparated d)) := by
    decide
  exact fun n hn d hd => of_decide_eq_true (List.all_eq_true.mp (h n hn) d hd)

theorem unseparated_escapeHex {c : Char} (hc : c.toNat < 128) : ∀ d ∈ Text.escapeHex c, Unseparated d := by
  intro d hd
  unfold Text.escapeHex at hd
  rcases List.mem_cons.mp hd with rfl | hd
  · exact fun h => absurd h (by decide)
  · rcases List.mem_append.mp hd with hd | hd
    · exact unseparated_hex c.toNat hc d hd
    · rw [List.mem_singleton.mp hd]
      exact fun h => absurd h (by decide)

theorem unseparated_nameChar (c : Char) : ∀ d ∈ Text.nameChar c, Unseparated d := by
  intro d hd
  unfold Text.nameChar at hd
  split at hd
  · next hname =>
    rw [List.mem_singleton.mp hd]
    rintro rfl
    cases hname
  · next hname =>
    split at hd
    · rw [List.mem_singleton.mp hd]
      exact fun h => absurd h (by decide)
    · split at hd
      · exact unseparated_escapeHex (Selector.toNat_lt_of_not_isNameChar hname) d hd
      · next hcontrol =>
        rcases List.mem_cons.mp hd with rfl | hd
        · exact fun h => absurd h (by decide)
        · rw [List.mem_singleton.mp hd]
          rintro rfl
          exact hcontrol (by decide)

theorem unseparated_nameChars (cs : List Char) : ∀ d ∈ Text.nameChars cs, Unseparated d := by
  intro d hd
  obtain ⟨c, -, hd⟩ := List.mem_flatMap.mp hd
  exact unseparated_nameChar c d hd

theorem unseparated_identStart (cs : List Char) : ∀ d ∈ Text.identStart cs, Unseparated d := by
  intro d hd
  unfold Text.identStart at hd
  split at hd
  · exact absurd hd List.not_mem_nil
  · split at hd
    · next hdigit =>
      rcases List.mem_append.mp hd with hd | hd
      · exact unseparated_escapeHex (Selector.toNat_lt_of_isDigit hdigit) d hd
      · exact unseparated_nameChars _ d hd
    · exact unseparated_nameChars _ d hd

theorem unseparated_identChars (cs : List Char) : ∀ d ∈ Text.identChars cs, Unseparated d := by
  have hdash : Unseparated '-' := fun h => absurd h (by decide)
  intro d hd
  unfold Text.identChars at hd
  split at hd
  · rcases List.mem_cons.mp hd with rfl | hd
    · exact hdash
    rcases List.mem_cons.mp hd with rfl | hd
    · exact hdash
    · exact unseparated_nameChars _ d hd
  · rcases List.mem_cons.mp hd with rfl | hd
    · exact fun h => absurd h (by decide)
    · rw [List.mem_singleton.mp hd]; exact hdash
  · rcases List.mem_cons.mp hd with rfl | hd
    · exact hdash
    · exact unseparated_identStart _ d hd
  · exact unseparated_identStart _ d hd

/-- No debug name brings a separator into the selector of a class. -/
theorem unseparated_root (style : NormalStyle) : AllChars Unseparated (root style) := by
  intro c hc
  rw [toList_root] at hc
  rcases List.mem_cons.mp hc with rfl | hc
  · exact fun h => absurd h (by decide)
  · exact unseparated_identChars _ c hc

end Registry

end StyleEngine
