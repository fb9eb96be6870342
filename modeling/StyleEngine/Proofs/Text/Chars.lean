/-!
# Characters of a text

Texts all of whose characters are allowed, and texts that a single character divides.
-/

namespace StyleEngine

/-- Every character of `s` is one of those that `p` allows. -/
def AllChars (p : Char → Prop) (s : String) : Prop := ∀ c ∈ s.toList, p c

instance {p : Char → Prop} [DecidablePred p] (s : String) : Decidable (AllChars p s) :=
  decidable_of_iff (s.toList.all fun c => decide (p c)) (by simp [AllChars])

theorem AllChars.append {p : Char → Prop} {s t : String} (hs : AllChars p s) (ht : AllChars p t) :
    AllChars p (s ++ t) := by
  intro c hc
  rw [String.toList_append] at hc
  rcases List.mem_append.mp hc with hc | hc
  · exact hs c hc
  · exact ht c hc

theorem AllChars.intercalate {p : Char → Prop} {s : String} {l : List String} (hs : AllChars p s)
    (hl : ∀ t ∈ l, AllChars p t) : AllChars p (s.intercalate l) := by
  induction l with
  | nil => intro c hc; simp at hc
  | cons t rest ih =>
    cases rest with
    | nil => simpa using hl t (List.mem_singleton_self t)
    | cons u rest =>
      rw [String.intercalate_cons_cons]
      refine ((hl t List.mem_cons_self).append hs).append (ih fun v hv => ?_)
      exact hl v (List.mem_cons_of_mem _ hv)

theorem AllChars.mono {p q : Char → Prop} {s : String} (h : AllChars p s) (hpq : ∀ c, p c → q c) :
    AllChars q s :=
  fun c hc => hpq c (h c hc)

/-- Of two cuts of a list at an `x`, the first of which has no `x` in front, either both are the same or the
second one comes later. -/
theorem halves_eq_or_mem {α : Type} {x : α} {a b c d : List α} (ha : x ∉ a) (h : a ++ x :: b = c ++ x :: d) :
    (a = c ∧ b = d) ∨ (x ∈ b ∧ x ∈ c) := by
  rcases List.append_eq_append_iff.mp h with ⟨e, rfl, he⟩ | ⟨e, rfl, he⟩
  · cases e with
    | nil => exact .inl (by simpa using he)
    | cons y e =>
      obtain ⟨rfl, rfl⟩ := List.cons.inj he
      exact .inr ⟨List.mem_append_right _ List.mem_cons_self, List.mem_append_right _ List.mem_cons_self⟩
  · cases e with
    | nil => exact .inl (by simpa using he.symm)
    | cons y e =>
      obtain ⟨rfl, -⟩ := List.cons.inj he
      exact absurd (List.mem_append_right _ List.mem_cons_self) ha

/-- Two lists that a single `x` divides have the same halves. -/
theorem halves_eq {α : Type} {x : α} {a b c d : List α} (ha : x ∉ a) (hb : x ∉ b)
    (h : a ++ x :: b = c ++ x :: d) : a = c ∧ b = d :=
  (halves_eq_or_mem ha h).resolve_right fun hm => hb hm.1

/-- Two lists have the same halves when they are cut at their first `x`. -/
theorem first_halves_eq {α : Type} {x : α} {a b c d : List α} (ha : x ∉ a) (hc : x ∉ c)
    (h : a ++ x :: b = c ++ x :: d) : a = c ∧ b = d :=
  (halves_eq_or_mem ha h).resolve_right fun hm => hc hm.2

/-- Two lists have the same halves when they are cut at their last `x`. -/
theorem last_halves_eq {α : Type} {x : α} {a b c d : List α} (hb : x ∉ b) (hd : x ∉ d)
    (h : a ++ x :: b = c ++ x :: d) : a = c ∧ b = d := by
  have hr : b.reverse ++ x :: a.reverse = d.reverse ++ x :: c.reverse := by
    simpa using congrArg List.reverse h
  obtain ⟨hbd, hac⟩ := first_halves_eq (by simpa using hb) (by simpa using hd) hr
  exact ⟨List.reverse_inj.mp hac, List.reverse_inj.mp hbd⟩

/-- Texts without a character are told from what they are joined to by that character. -/
theorem intercalate_inj {separator : String} {c : Char} (hc : separator.toList = [c]) {l l' : List String}
    (hne : l ≠ []) (hne' : l' ≠ []) (h : ∀ s ∈ l, AllChars (· ≠ c) s) (h' : ∀ s ∈ l', AllChars (· ≠ c) s)
    (he : separator.intercalate l = separator.intercalate l') : l = l' := by
  have hcons : ∀ (s t : String) (rest : List String), (separator.intercalate (s :: t :: rest)).toList =
      s.toList ++ c :: (separator.intercalate (t :: rest)).toList :=
    fun s t rest => by simp [String.intercalate_cons_cons, hc]
  have hone : ∀ s, separator.intercalate [s] = s := fun s => by simp
  induction l generalizing l' with
  | nil => exact absurd rfl hne
  | cons s rest ih =>
    obtain ⟨s', rest', rfl⟩ := List.exists_cons_of_ne_nil hne'
    have hs : c ∉ s.toList := fun hm => h s List.mem_cons_self _ hm rfl
    have hs' : c ∉ s'.toList := fun hm => h' s' List.mem_cons_self _ hm rfl
    cases rest with
    | nil =>
      cases rest' with
      | nil => rw [hone, hone] at he; rw [he]
      | cons t' rest' =>
        rw [hone, ← String.toList_inj, hcons] at he
        exact absurd (he ▸ List.mem_append_right _ List.mem_cons_self) hs
    | cons t rest =>
      cases rest' with
      | nil =>
        rw [hone, ← String.toList_inj, hcons] at he
        exact absurd (he ▸ List.mem_append_right _ List.mem_cons_self) hs'
      | cons t' rest' =>
        rw [← String.toList_inj, hcons, hcons] at he
        obtain ⟨hhead, htail⟩ := first_halves_eq hs hs' he
        have hrest := ih (by simp) (by simp) (fun u hu => h u (List.mem_cons_of_mem _ hu))
          (fun u hu => h' u (List.mem_cons_of_mem _ hu)) (String.toList_inj.mp htail)
        rw [String.toList_inj.mp hhead, hrest]

end StyleEngine
