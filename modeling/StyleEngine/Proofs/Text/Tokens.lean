import StyleEngine.Proofs.Text.Chars

/-!
# Tokens of a text

The tokens of a text, such as the value of a `class` attribute, are what stands between ASCII whitespace.
Texts joined by spaces have the tokens of one after those of the other (`tokens_intercalate`). They can be
told apart again exactly when no whitespace stands in them (`flatMap_tokens_eq_self_iff`).
-/

namespace StyleEngine.Text

/-- Tab, line feed, form feed, carriage return and space. -/
def isSpace (c : Char) : Bool := c = '\t' || c = '\n' || c = '\x0c' || c = '\r' || c = ' '

def tokens (s : String) : List String :=
  ((s.toList.splitOnP isSpace).filter (!·.isEmpty)).map String.ofList

abbrev Spaceless (s : String) : Prop := AllChars (fun c => isSpace c = false) s

/-- The pieces hold what does not cut, in order. -/
theorem flatten_splitOnP {α : Type} (p : α → Bool) (xs : List α) :
    (xs.splitOnP p).flatten = xs.filter fun x => !p x := by
  induction xs with
  | nil => rfl
  | cons x rest ih =>
    rw [List.splitOnP_cons_eq_if_modifyHead]
    cases hx : p x with
    | true =>
      rw [if_pos rfl, List.flatten_cons, List.nil_append, ih, List.filter_cons_of_neg (by simp [hx])]
    | false =>
      obtain ⟨head, tail, hs⟩ := List.exists_cons_of_ne_nil (List.splitOnP_ne_nil p rest)
      rw [hs, List.flatten_cons] at ih
      rw [if_neg Bool.false_ne_true, hs, List.modifyHead_cons, List.flatten_cons, List.cons_append, ih,
        List.filter_cons_of_pos (by simp [hx])]

variable {s t : String} {names : List String}

theorem tokens_append_space (s t : String) : tokens (s ++ " " ++ t) = tokens s ++ tokens t := by
  have hlist : (s ++ " " ++ t).toList = s.toList ++ ' ' :: t.toList := by simp
  rw [tokens, hlist, List.splitOnP_append_cons _ _ (by decide), List.filter_append, List.map_append, tokens, tokens]

theorem tokens_intercalate (names : List String) : tokens (" ".intercalate names) = names.flatMap tokens := by
  induction names with
  | nil => rfl
  | cons name rest ih =>
    cases rest with
    | nil => simp
    | cons next rest =>
      rw [String.intercalate_cons_cons, tokens_append_space, ih]
      rfl

theorem spaceless_of_mem_tokens (h : t ∈ tokens s) : Spaceless t := by
  obtain ⟨piece, hpiece, rfl⟩ := List.mem_map.mp h
  intro c hc
  rw [String.toList_ofList] at hc
  have hflat := List.mem_flatten_of_mem (List.mem_filter.mp hpiece).1 hc
  rw [flatten_splitOnP] at hflat
  simpa using (List.mem_filter.mp hflat).2

theorem tokens_of_spaceless (hne : s ≠ "") (h : Spaceless s) : tokens s = [s] := by
  have hlist : s.toList ≠ [] := by simpa using hne
  rw [tokens, List.splitOnP_eq_singleton h, List.filter_cons_of_pos (by simpa using hne)]
  simp

theorem tokens_ne_nil {c : Char} (hc : c ∈ s.toList) (h : isSpace c = false) : tokens s ≠ [] := by
  have hflat : c ∈ (s.toList.splitOnP isSpace).flatten := by
    rw [flatten_splitOnP]
    exact List.mem_filter.mpr ⟨hc, by rw [h]; rfl⟩
  obtain ⟨piece, hpiece, hmem⟩ := List.mem_flatten.mp hflat
  have hne : (!piece.isEmpty) = true := by simpa using List.ne_nil_of_mem hmem
  exact List.ne_nil_of_mem (List.mem_map_of_mem (List.mem_filter.mpr ⟨hpiece, hne⟩))

/-- Names that are not blank are read back exactly when none has whitespace. -/
theorem flatMap_tokens_eq_self_iff (hne : ∀ name ∈ names, tokens name ≠ []) :
    names.flatMap tokens = names ↔ ∀ name ∈ names, Spaceless name := by
  have hblank : ∀ {name : String}, tokens name ≠ [] → name ≠ "" := by
    rintro name h rfl
    exact h rfl
  induction names with
  | nil => exact ⟨fun _ _ h => absurd h List.not_mem_nil, fun _ => rfl⟩
  | cons name rest ih =>
    obtain ⟨hname, hrest⟩ := List.forall_mem_cons.mp hne
    rw [List.flatMap_cons, List.forall_mem_cons]
    constructor
    · intro h
      obtain ⟨first, others, hfirst⟩ := List.exists_cons_of_ne_nil hname
      rw [hfirst, List.cons_append] at h
      obtain ⟨rfl, htail⟩ := List.cons.inj h
      have hspaceless : Spaceless first := spaceless_of_mem_tokens (hfirst ▸ List.mem_cons_self)
      rw [tokens_of_spaceless (hblank hname) hspaceless] at hfirst
      obtain rfl := (List.cons.inj hfirst).2
      exact ⟨hspaceless, (ih hrest).mp htail⟩
    · rintro ⟨hspaceless, hall⟩
      rw [tokens_of_spaceless (hblank hname) hspaceless, (ih hrest).mpr hall]
      rfl

end StyleEngine.Text
