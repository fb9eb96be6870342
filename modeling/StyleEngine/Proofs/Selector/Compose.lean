import StyleEngine.Proofs.Text.Chars
import StyleEngine.Selector

/-!
# Composition and the root

A selector is composed by cutting texts that were composed before, so what is known of the root has
to survive the cuts. A root is `Solid` when the scan passes it the way it passes `&` and no blank
stands at its ends: then no cut falls inside it, and composing under it is composing under `&` and
putting the root in place of every `&` afterwards (`compose_substitute`).
-/

namespace StyleEngine

/-- The first text stands somewhere in the second. -/
def Within (r s : String) : Prop := r.toList <:+: s.toList

theorem within_refl (r : String) : Within r r := List.infix_refl r.toList

namespace Selector

/-- Quotes are opened by quote characters only. -/
def Scan.Proper (s : Scan) : Prop := ∀ q, s.quote = some q → q = '"' ∨ q = '\''

theorem Scan.proper_start : Scan.Proper {} := fun _ h => nomatch h

theorem Scan.Proper.step {s : Scan} (h : s.Proper) (c : Char) : (s.step c).Proper := by
  unfold Scan.step
  split
  · exact h
  · split
    · exact h
    · split
      · split
        · exact fun _ hq => nomatch hq
        · exact h
      · split
        · next hc =>
          intro q hq
          obtain rfl := Option.some.inj hq
          simpa using hc
        · split
          · exact h
          · split <;> exact h

/-- The scan passes the text like `&`, and the text neither starts nor ends with a blank. -/
structure Solid (root : List Char) : Prop where
  pieces_append : ∀ s : Scan, s.Proper → ∀ rest,
    pieces s (root ++ rest) = (pieces (s.step '&') rest).modifyHead (root ++ ·)
  head : ∃ c cs, root = c :: cs ∧ Text.isBlank c = false
  last : ∃ c cs, root = cs ++ [c] ∧ Text.isBlank c = false

theorem solid_amp : Solid ['&'] := by
  refine ⟨fun s _ rest => ?_, ⟨'&', [], rfl, by decide⟩, ⟨'&', [], rfl, by decide⟩⟩
  have hc : s.cutsAt '&' = false := by simp [Scan.cutsAt]
  rw [List.cons_append, pieces, hc]
  rfl

theorem Solid.ne_empty_of_within {root s : String} (hr : Solid root.toList) (h : Within root s) : s ≠ "" := by
  rintro rfl
  obtain ⟨c, cs, hc, -⟩ := hr.head
  rw [List.infix_nil.mp h] at hc
  cases hc

/-- The characters with `root` in place of every `&`. -/
def fill (root cs : List Char) : List Char := cs.flatMap fun c => if c = '&' then root else [c]

theorem toList_substitute (parent child : String) :
    (substitute parent child).toList = fill parent.toList child.toList := by
  simp [substitute, fill]

theorem fill_append (root a b : List Char) : fill root (a ++ b) = fill root a ++ fill root b :=
  List.flatMap_append

theorem fill_of_not_mem {root cs : List Char} (h : '&' ∉ cs) : fill root cs = cs := by
  induction cs with
  | nil => rfl
  | cons c rest ih =>
    have hc : c ≠ '&' := fun e => h (e ▸ List.mem_cons_self)
    have hr : '&' ∉ rest := fun hm => h (List.mem_cons_of_mem _ hm)
    have ih : rest.flatMap (fun c => if c = '&' then root else [c]) = rest := ih hr
    rw [fill, List.flatMap_cons, if_neg hc, ih]
    rfl

theorem reverse_fill (root cs : List Char) : (fill root cs).reverse = fill root.reverse cs.reverse := by
  induction cs with
  | nil => rfl
  | cons c rest ih =>
    rw [List.reverse_cons, fill_append, ← ih, ← List.singleton_append, fill_append, List.reverse_append]
    by_cases hc : c = '&' <;> simp [fill, hc]

/-- Filling in two steps is filling with what was filled. -/
theorem fill_fill (root parent cs : List Char) :
    fill root (fill parent cs) = fill (fill root parent) cs := by
  induction cs with
  | nil => rfl
  | cons c rest ih =>
    rw [← List.singleton_append, fill_append, fill_append, fill_append, ih]
    by_cases hc : c = '&' <;> simp [fill, hc]

/-! ## Cutting -/

theorem map_modifyHead {α β : Type} {f : α → α} {g : α → β} {h : β → β} (hg : ∀ a, g (f a) = h (g a))
    (l : List α) : (l.modifyHead f).map g = (l.map g).modifyHead h := by
  cases l with
  | nil => rfl
  | cons a rest => simp [hg]

theorem modifyHead_congr {α : Type} {f g : α → α} (h : ∀ a, f a = g a) (l : List α) :
    l.modifyHead f = l.modifyHead g := by
  rw [funext h]

theorem pieces_fill {root : List Char} (hr : Solid root) {s : Scan} (hs : s.Proper) (cs : List Char) :
    pieces s (fill root cs) = (pieces s cs).map (fill root) := by
  induction cs generalizing s with
  | nil => rfl
  | cons c rest ih =>
    rw [← List.singleton_append, fill_append, List.singleton_append]
    by_cases hc : c = '&'
    · subst hc
      have hcut : s.cutsAt '&' = false := by simp [Scan.cutsAt]
      have hroot : fill root ['&'] = root := by simp [fill]
      rw [hroot, hr.pieces_append s hs, ih (hs.step _), pieces, hcut, if_neg Bool.false_ne_true]
      refine (map_modifyHead (fun p => ?_) _).symm
      rw [← List.singleton_append, fill_append, hroot]
    · have hone : fill root [c] = [c] := by simp [fill, hc]
      rw [hone, List.singleton_append, pieces, pieces, ih (hs.step _)]
      split
      · rfl
      · refine (map_modifyHead (fun p => ?_) _).symm
        rw [← List.singleton_append, fill_append, hone, List.singleton_append]

theorem dropWhile_fill {root : List Char} (hr : ∃ c cs, root = c :: cs ∧ Text.isBlank c = false)
    (cs : List Char) : (fill root cs).dropWhile Text.isBlank = fill root (cs.dropWhile Text.isBlank) := by
  obtain ⟨d, ds, rfl, hd⟩ := hr
  induction cs with
  | nil => rfl
  | cons c rest ih =>
    by_cases hc : c = '&'
    · subst hc
      have hamp : Text.isBlank '&' = false := by decide
      simp [fill, hd, hamp]
    · have hcons : fill (d :: ds) (c :: rest) = c :: fill (d :: ds) rest := by simp [fill, hc]
      rw [hcons, List.dropWhile_cons, List.dropWhile_cons]
      split
      · exact ih
      · exact hcons.symm

theorem trimChars_fill {root : List Char} (hr : Solid root) (cs : List Char) :
    Text.trimChars (fill root cs) = fill root (Text.trimChars cs) := by
  have hrev : ∃ c cs, root.reverse = c :: cs ∧ Text.isBlank c = false := by
    obtain ⟨c, cs, rfl, hc⟩ := hr.last
    exact ⟨c, cs.reverse, by simp, hc⟩
  rw [Text.trimChars, dropWhile_fill hr.head, reverse_fill, dropWhile_fill hrev, reverse_fill,
    List.reverse_reverse]
  rfl

theorem split_substitute {root : String} (hr : Solid root.toList) (parent : String) :
    split (substitute root parent) = (split parent).map (substitute root) := by
  rw [split, toList_substitute, pieces_fill hr Scan.proper_start, List.map_map, split, List.map_map]
  refine List.map_congr_left fun p _ => ?_
  rw [← String.toList_inj]
  simp [toList_substitute, trimChars_fill hr]

theorem attach_substitute (root parent child : String) :
    attach (substitute root parent) child = substitute root (attach parent child) := by
  unfold attach
  by_cases hm : mentionsParent child = true
  · rw [if_pos hm, if_pos hm, ← String.toList_inj]
    simp only [toList_substitute, fill_fill]
  · rw [if_neg hm, if_neg hm, ← String.toList_inj]
    have hn : '&' ∉ child.toList := fun h => hm (List.contains_iff_mem.mpr h)
    have hs : fill root.toList (' ' :: child.toList) = ' ' :: child.toList :=
      fill_of_not_mem (by simpa using hn)
    simp [toList_substitute, fill_append, hs]

theorem substitute_joinList (root : String) (l : List String) :
    substitute root (joinList l) = joinList (l.map (substitute root)) := by
  induction l with
  | nil => rfl
  | cons s rest ih =>
    cases rest with
    | nil => simp [joinList]
    | cons t rest =>
      have hj : ∀ a b : String, ∀ l, joinList (a :: b :: l) = a ++ "," ++ joinList (b :: l) :=
        fun a b l => String.intercalate_cons_cons
      rw [hj, List.map_cons, List.map_cons, hj, ← List.map_cons, ← ih, ← String.toList_inj]
      simp [toList_substitute, fill]

/-- Composing under a solid root is composing under `&` with the root put in afterwards. -/
theorem compose_substitute {root : String} (hr : Solid root.toList) (parent selector : String) :
    compose (substitute root parent) selector = substitute root (compose parent selector) := by
  rw [compose, split_substitute hr, compose, substitute_joinList, List.flatMap_map, List.map_flatMap]
  simp only [List.map_map]
  congr 2
  funext p
  exact List.map_congr_left fun c _ => attach_substitute root p c

/-! ## The root stays whole -/

theorem exists_piece {root : List Char} (hr : Solid root) {s : Scan} (hs : s.Proper) {cs : List Char}
    (h : root <:+: cs) : ∃ p ∈ pieces s cs, root <:+: p := by
  obtain ⟨before, after, rfl⟩ := h
  induction before generalizing s with
  | nil =>
    rw [List.nil_append, hr.pieces_append s hs]
    cases hp : pieces (s.step '&') after with
    | nil => exact absurd hp (pieces_ne_nil _ _)
    | cons p rest => exact ⟨root ++ p, List.mem_cons_self, List.infix_append' [] root p⟩
  | cons c before ih =>
    obtain ⟨p, hp, hin⟩ := ih (hs.step c)
    rw [List.cons_append, List.cons_append, pieces]
    split
    · exact ⟨p, List.mem_cons_of_mem _ hp, hin⟩
    · cases hl : pieces (s.step c) (before ++ root ++ after) with
      | nil => exact absurd hl (pieces_ne_nil _ _)
      | cons q rest =>
        rw [hl] at hp
        rcases List.mem_cons.mp hp with rfl | hp
        · exact ⟨c :: p, List.mem_cons_self, hin.trans (List.suffix_cons c p).isInfix⟩
        · exact ⟨p, List.mem_cons_of_mem _ hp, hin⟩

theorem infix_dropWhile {root cs : List Char} (hr : ∃ c r, root = c :: r ∧ Text.isBlank c = false)
    (h : root <:+: cs) : root <:+: cs.dropWhile Text.isBlank := by
  obtain ⟨before, after, rfl⟩ := h
  induction before with
  | nil =>
    obtain ⟨c, r, rfl, hc⟩ := hr
    simp only [List.nil_append, List.cons_append, List.dropWhile_cons, hc, Bool.false_eq_true, if_false]
    exact List.infix_append' [] (c :: r) after
  | cons b before ih =>
    rw [List.cons_append, List.cons_append, List.dropWhile_cons]
    split
    · exact ih
    · exact ⟨b :: before, after, rfl⟩

theorem infix_trimChars {root cs : List Char} (hr : Solid root) (h : root <:+: cs) :
    root <:+: Text.trimChars cs := by
  have hrev : ∃ c r, root.reverse = c :: r ∧ Text.isBlank c = false := by
    obtain ⟨c, r, rfl, hc⟩ := hr.last
    exact ⟨c, r.reverse, by simp, hc⟩
  have hdrop := infix_dropWhile hrev (List.reverse_infix.mpr (infix_dropWhile hr.head h))
  rw [Text.trimChars, ← List.reverse_infix, List.reverse_reverse]
  exact hdrop

theorem within_joinList {s : String} {l : List String} (h : s ∈ l) : Within s (joinList l) := by
  induction l with
  | nil => exact absurd h List.not_mem_nil
  | cons t rest ih =>
    cases rest with
    | nil =>
      obtain rfl := List.mem_singleton.mp h
      simp [Within, joinList]
    | cons u rest =>
      have hj : (joinList (t :: u :: rest)).toList = t.toList ++ (',' :: (joinList (u :: rest)).toList) := by
        simp [joinList, String.intercalate_cons_cons]
      unfold Within
      rw [hj]
      rcases List.mem_cons.mp h with rfl | h
      · exact List.infix_append' [] _ _
      · exact (ih h).trans ((List.suffix_cons _ _).trans (List.suffix_append _ _)).isInfix

theorem within_attach {root parent : String} (h : Within root parent) (child : String) :
    Within root (attach parent child) := by
  unfold attach
  split
  · next hm =>
    obtain ⟨u, v, hu⟩ := List.append_of_mem (List.contains_iff_mem.mp hm)
    have he : (substitute parent child).toList
        = fill parent.toList u ++ parent.toList ++ fill parent.toList v := by
      rw [toList_substitute, hu, fill_append, ← List.singleton_append, fill_append, List.append_assoc]
      simp [fill]
    unfold Within
    rw [he]
    exact h.trans (List.infix_append _ _ _)
  · unfold Within
    rw [String.toList_append, String.toList_append, List.append_assoc]
    exact h.trans (List.infix_append' [] _ _)

/-- A solid root that stands in the parent stands in what is composed below it. -/
theorem within_compose {root parent : String} (hr : Solid root.toList) (h : Within root parent)
    (selector : String) : Within root (compose parent selector) := by
  obtain ⟨p, hp, hin⟩ := exists_piece hr Scan.proper_start h
  have hpart : String.ofList (Text.trimChars p) ∈ split parent := List.mem_map_of_mem hp
  obtain ⟨c, hc⟩ := List.exists_mem_of_ne_nil _ (split_ne_nil selector)
  have hmem : attach (String.ofList (Text.trimChars p)) c ∈
      (split parent).flatMap fun p => (split selector).map (attach p) :=
    List.mem_flatMap.mpr ⟨_, hpart, List.mem_map_of_mem hc⟩
  have hroot : Within root (String.ofList (Text.trimChars p)) := by
    simpa [Within] using infix_trimChars hr hin
  exact (within_attach hroot c).trans (within_joinList hmem)

/-! ## Characters -/

section

variable {P : Char → Prop}

theorem mem_of_mem_pieces {s : Scan} {cs p : List Char} {c : Char} (hp : p ∈ pieces s cs)
    (hc : c ∈ p) : c ∈ cs := by
  induction cs generalizing s p with
  | nil =>
    obtain rfl := List.mem_singleton.mp hp
    exact absurd hc List.not_mem_nil
  | cons d rest ih =>
    unfold pieces at hp
    split at hp
    · rcases List.mem_cons.mp hp with rfl | hp
      · exact absurd hc List.not_mem_nil
      · exact List.mem_cons_of_mem _ (ih hp hc)
    · cases hl : pieces (s.step d) rest with
      | nil => exact absurd hl (pieces_ne_nil _ _)
      | cons q qs =>
        rw [hl, List.modifyHead_cons] at hp
        rcases List.mem_cons.mp hp with rfl | hp
        · rcases List.mem_cons.mp hc with rfl | hc
          · exact List.mem_cons_self
          · exact List.mem_cons_of_mem _ (ih (hl ▸ List.mem_cons_self) hc)
        · exact List.mem_cons_of_mem _ (ih (hl ▸ List.mem_cons_of_mem _ hp) hc)

theorem mem_of_mem_trimChars {cs : List Char} {c : Char} (h : c ∈ Text.trimChars cs) : c ∈ cs := by
  have hsub : (Text.trimChars cs).reverse.Sublist cs.reverse := by
    rw [Text.trimChars, List.reverse_reverse]
    exact (List.dropWhile_sublist _).trans (List.reverse_sublist.mpr (List.dropWhile_sublist _))
  exact List.mem_reverse.mp (hsub.subset (List.mem_reverse.mpr h))

theorem allChars_split {selector : String} (h : AllChars P selector) :
    ∀ part ∈ split selector, AllChars P part := by
  intro part hpart c hc
  obtain ⟨p, hp, rfl⟩ := List.mem_map.mp hpart
  rw [String.toList_ofList] at hc
  exact h c (mem_of_mem_pieces hp (mem_of_mem_trimChars hc))

theorem allChars_attach (hblank : P ' ') {parent child : String} (hp : AllChars P parent)
    (hc : AllChars P child) : AllChars P (attach parent child) := by
  unfold attach
  split
  · intro c hm
    rw [toList_substitute] at hm
    obtain ⟨d, hd, hm⟩ := List.mem_flatMap.mp hm
    split at hm
    · exact hp c hm
    · exact List.mem_singleton.mp hm ▸ hc d hd
  · refine (hp.append fun c hm => ?_).append hc
    obtain rfl : c = ' ' := by simpa using hm
    exact hblank

theorem allChars_joinList (hcomma : P ',') {l : List String} (h : ∀ s ∈ l, AllChars P s) :
    AllChars P (joinList l) := by
  refine AllChars.intercalate (fun c hc => ?_) h
  obtain rfl : c = ',' := by simpa using hc
  exact hcomma

/-- Composition adds commas and blanks only. -/
theorem allChars_compose (hcomma : P ',') (hblank : P ' ') {parent selector : String}
    (hp : AllChars P parent) (hs : AllChars P selector) : AllChars P (compose parent selector) := by
  refine allChars_joinList hcomma fun s hm => ?_
  obtain ⟨p, hpart, hm⟩ := List.mem_flatMap.mp hm
  obtain ⟨c, hc, rfl⟩ := List.mem_map.mp hm
  exact allChars_attach hblank (allChars_split hp p hpart) (allChars_split hs c hc)

theorem pieces_of_not_mem {cs : List Char} (h : ',' ∉ cs) (s : Scan) : pieces s cs = [cs] := by
  induction cs generalizing s with
  | nil => rfl
  | cons c rest ih =>
    have hc : c ≠ ',' := fun e => h (e ▸ List.mem_cons_self)
    have hcut : s.cutsAt c = false := by simp [Scan.cutsAt, hc]
    rw [pieces, hcut, ih fun hm => h (List.mem_cons_of_mem _ hm)]
    rfl

/-- Composition adds no comma when there is one part below one parent. -/
theorem allChars_compose_uncut {parent selector : String} (hp : AllChars (· ≠ ',') parent)
    (hs : AllChars (· ≠ ',') selector) : AllChars (· ≠ ',') (compose parent selector) := by
  have hone : ∀ s : String, AllChars (· ≠ ',') s → ∃ part, split s = [part] := fun s h =>
    ⟨_, by rw [split, pieces_of_not_mem fun hm => h _ hm rfl, List.map_singleton]⟩
  obtain ⟨p, hp'⟩ := hone parent hp
  obtain ⟨c, hc'⟩ := hone selector hs
  have hcompose : compose parent selector = attach p c := by
    rw [compose, hp', hc']
    simp [joinList]
  rw [hcompose]
  refine allChars_attach (by decide) (allChars_split hp p ?_) (allChars_split hs c ?_)
  · rw [hp']; exact List.mem_singleton_self p
  · rw [hc']; exact List.mem_singleton_self c

end

end Selector

end StyleEngine
