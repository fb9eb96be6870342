import StyleEngine.Proofs.Selector.Root

/-!
# Parts that stay apart

A composed selector is cut again when the next level is composed, at the same commas or at others.
Under a well-formed key it is at the same ones: every part can stand anywhere outside quotes, at any
depth of brackets, and a scan leaves it as it came (`Neutral`). So cutting a joined list gives the
parts that were joined (`split_joinList`), and each part of what is composed has a part of the parent
in it (`Scoped.compose`).
-/

namespace StyleEngine

namespace Text

/-- Trimming takes blanks away at both ends. -/
theorem exists_blanks_trimChars (cs : List Char) :
    ∃ front back, cs = front ++ (trimChars cs ++ back) ∧
      (∀ c ∈ front, isBlank c = true) ∧ ∀ c ∈ back, isBlank c = true := by
  have hfront : cs.takeWhile isBlank ++ cs.dropWhile isBlank = cs := List.takeWhile_append_dropWhile
  generalize hd : cs.dropWhile isBlank = d at hfront
  have hback : d.reverse.takeWhile isBlank ++ d.reverse.dropWhile isBlank = d.reverse :=
    List.takeWhile_append_dropWhile
  have htrim : trimChars cs ++ (d.reverse.takeWhile isBlank).reverse = d := by
    rw [trimChars, hd, ← List.reverse_append, hback, List.reverse_reverse]
  refine ⟨cs.takeWhile isBlank, (d.reverse.takeWhile isBlank).reverse, ?_, fun c hc => ?_, fun c hc => ?_⟩
  · rw [htrim, hfront]
  · exact List.all_eq_true.mp List.all_takeWhile c hc
  · exact List.all_eq_true.mp List.all_takeWhile c (List.mem_reverse.mp hc)

theorem isBlank_of_trimChars_eq_append {cs rest : List Char} {c : Char} (h : trimChars cs = rest ++ [c]) :
    isBlank c = false := by
  have hback : (cs.dropWhile isBlank).reverse.dropWhile isBlank = c :: rest.reverse := by
    rw [← List.reverse_reverse (List.dropWhile _ _), ← trimChars, h, List.reverse_append]
    rfl
  exact head_dropWhile_isBlank hback

theorem isBlank_of_trimChars_eq_cons {cs rest : List Char} {c : Char} (h : trimChars cs = c :: rest) :
    isBlank c = false := by
  have hpre : trimChars cs <+: cs.dropWhile isBlank := by
    have hsuf : (cs.dropWhile isBlank).reverse.dropWhile isBlank <:+ (cs.dropWhile isBlank).reverse :=
      List.dropWhile_suffix _
    rw [trimChars]
    simpa using List.reverse_prefix.mpr hsuf
  obtain ⟨more, hmore⟩ := h ▸ hpre
  exact head_dropWhile_isBlank hmore.symm

/-- A text without blanks at its ends is trimmed. -/
theorem trimChars_of_ends {cs : List Char} (hh : ∃ c rest, cs = c :: rest ∧ isBlank c = false)
    (hl : ∃ c rest, cs = rest ++ [c] ∧ isBlank c = false) : trimChars cs = cs := by
  have hdrop : cs.dropWhile isBlank = cs := by
    obtain ⟨c, rest, rfl, hc⟩ := hh
    rw [List.dropWhile_cons, hc]
    rfl
  have hback : cs.reverse.dropWhile isBlank = cs.reverse := by
    obtain ⟨c, rest, rfl, hc⟩ := hl
    rw [List.reverse_append, List.reverse_singleton, List.singleton_append, List.dropWhile_cons, hc]
    rfl
  rw [trimChars, hdrop, hback, List.reverse_reverse]

theorem trimChars_trimChars (cs : List Char) : trimChars (trimChars cs) = trimChars cs := by
  by_cases hne : trimChars cs = []
  · rw [hne, trimChars_nil]
  · refine trimChars_of_ends ?_ ?_
    · obtain ⟨c, rest, he⟩ := List.exists_cons_of_ne_nil hne
      exact ⟨c, rest, he, isBlank_of_trimChars_eq_cons he⟩
    · have he := (List.dropLast_concat_getLast hne).symm
      exact ⟨_, _, he, isBlank_of_trimChars_eq_append he⟩

end Text

namespace Selector

/-! ## Well-formed keys -/

/-- Outside quotes, and no escape is pending. -/
def Scan.Free (s : Scan) : Prop := s.quote = none ∧ s.escaped = false

instance (s : Scan) : Decidable s.Free := inferInstanceAs (Decidable (_ ∧ _))

/-- Outside quotes a bracket closes one that is open, and `&` stands outside quotes and unescaped. -/
def Scan.Sound (s : Scan) (c : Char) : Prop :=
  (s.Free → c = ')' ∨ c = ']' → s.depth ≠ 0) ∧ (c = '&' → s.Free)

instance (s : Scan) (c : Char) : Decidable (s.Sound c) := inferInstanceAs (Decidable (_ ∧ _))

/-- Every character satisfies `ok` in the state in which the scan meets it. -/
def Throughout (ok : Scan → Char → Prop) : Scan → List Char → Prop
  | _, [] => True
  | s, c :: rest => ok s c ∧ Throughout ok (s.step c) rest

instance decidableThroughout {ok : Scan → Char → Prop} [∀ s c, Decidable (ok s c)] :
    ∀ s cs, Decidable (Throughout ok s cs)
  | _, [] => .isTrue trivial
  | s, c :: rest =>
    have : Decidable (Throughout ok (s.step c) rest) := decidableThroughout (s.step c) rest
    inferInstanceAs (Decidable (_ ∧ _))

/-- A key in which quotes, brackets and escapes are closed, no bracket closes too much, no part is
blank and every `&` stands outside quotes and unescaped. -/
structure Closed (key : String) : Prop where
  ends : Scan.run {} key.toList = {}
  sound : Throughout Scan.Sound {} key.toList
  parts : ∀ p ∈ pieces {} key.toList, Text.trimChars p ≠ []

/-- Whether the last character is an escaped blank. -/
def endsEscaped (p : List Char) : Bool := p.getLast?.any Text.isBlank && (Scan.run {} p.dropLast).escaped

/-- Whether trimming takes an escaped blank away: then a backslash is left that escapes whatever is
put behind it. -/
def trimsEscaped (p : List Char) : Bool := (Scan.run {} (Text.trimChars p)).escaped

/-- A closed key whose parts are trimmed without harm. -/
structure WellFormed (key : String) : Prop extends Closed key where
  trims : ∀ p ∈ pieces {} key.toList, trimsEscaped p = false

/-! ## Neutral texts -/

/-- A text that a scan outside quotes passes at any depth without a cut, ending where it began. -/
def Neutral (cs : List Char) : Prop :=
  ∀ s : Scan, s.Free → ∀ rest, pieces s (cs ++ rest) = (pieces s rest).modifyHead (cs ++ ·)

variable {parent cs : List Char} {s : Scan}

theorem Throughout.left {ok : Scan → Char → Prop} {a b : List Char} (h : Throughout ok s (a ++ b)) :
    Throughout ok s a := by
  induction a generalizing s with
  | nil => trivial
  | cons c rest ih => exact ⟨h.1, ih h.2⟩

theorem Throughout.right {ok : Scan → Char → Prop} {a b : List Char} (h : Throughout ok s (a ++ b)) :
    Throughout ok (s.run a) b := by
  induction a generalizing s with
  | nil => exact h
  | cons c rest ih => exact ih h.2

theorem run_append (s : Scan) (a b : List Char) : s.run (a ++ b) = (s.run a).run b := List.foldl_append

/-- The same scan further down in brackets. -/
def Scan.deepen (s : Scan) (n : Nat) : Scan := { s with depth := s.depth + n }

/-- A scan cuts only at a comma that it meets as it met the first character. -/
theorem Scan.start_of_cutsAt {c : Char} (h : s.cutsAt c = true) : s = {} ∧ c = ',' := by
  obtain ⟨depth, quote, escaped⟩ := s
  simp only [Scan.cutsAt, Bool.and_eq_true, Bool.not_eq_true', Option.isNone_iff_eq_none, decide_eq_true_eq] at h
  obtain ⟨⟨⟨rfl, rfl⟩, rfl⟩, rfl⟩ := h
  exact ⟨rfl, rfl⟩

theorem cutsAt_deepen {c : Char} (h : s.cutsAt c = false) (n : Nat) : (s.deepen n).cutsAt c = false := by
  by_cases hdepth : (s.deepen n).depth = 0
  · have hn : n = 0 := by simp only [Scan.deepen] at hdepth; omega
    rw [hn]
    exact h
  · simp [Scan.cutsAt, hdepth]

theorem step_deepen {c : Char} (h : s.Sound c) (n : Nat) : (s.deepen n).step c = (s.step c).deepen n := by
  obtain ⟨depth, quote, escaped⟩ := s
  cases escaped with
  | true => rfl
  | false =>
    by_cases hb : c = '\\'
    · simp [Scan.step, Scan.deepen, hb]
    cases quote with
    | some q =>
      by_cases hq : c = q
      · subst hq; simp [Scan.step, Scan.deepen, hb]
      · simp [Scan.step, Scan.deepen, hb, hq]
    | none =>
      by_cases hclose : c = ')' ∨ c = ']'
      · have hdepth : depth ≠ 0 := h.1 ⟨rfl, rfl⟩ hclose
        rcases hclose with rfl | rfl
        · simp [Scan.step, Scan.deepen]; omega
        · simp [Scan.step, Scan.deepen]; omega
      · obtain ⟨hround, hsquare⟩ := not_or.mp hclose
        by_cases hquote : c = '"' ∨ c = '\''
        · simp [Scan.step, Scan.deepen, hb, hquote]
        · by_cases hopen : c = '(' ∨ c = '['
          · simp [Scan.step, Scan.deepen, hb, hquote, hopen, Nat.add_right_comm]
          · simp [Scan.step, Scan.deepen, hb, hquote, hopen, hround, hsquare]

theorem step_amp (h : s.Free) : s.step '&' = s := by
  obtain ⟨depth, quote, escaped⟩ := s
  obtain ⟨rfl, rfl⟩ := h
  simp [Scan.step]

/-- The scan meets the text soundly and does not cut it. -/
def Uncut (s : Scan) (cs : List Char) : Prop := Throughout (fun s c => s.Sound c ∧ s.cutsAt c = false) s cs

/-- Neutral texts can be put in place of every `&`, at any depth. -/
theorem pieces_fill_of_neutral (hp : Neutral parent) (h : Uncut s cs) (n : Nat) (rest : List Char) :
    pieces (s.deepen n) (fill parent cs ++ rest) =
      (pieces ((s.run cs).deepen n) rest).modifyHead (fill parent cs ++ ·) := by
  induction cs generalizing s with
  | nil =>
    obtain ⟨p, ps, hps⟩ := List.exists_cons_of_ne_nil (pieces_ne_nil (s.deepen n) rest)
    show pieces (s.deepen n) rest = (pieces (s.deepen n) rest).modifyHead _
    rw [hps]
    rfl
  | cons c cs ih =>
    obtain ⟨⟨hsound, hcut⟩, hrest⟩ := h
    have ih := ih hrest
    rw [← List.singleton_append, fill_append, List.singleton_append]
    by_cases hc : c = '&'
    · subst hc
      have hfree : s.Free := hsound.2 rfl
      have hrun : s.run ('&' :: cs) = s.run cs := by
        rw [Scan.run, List.foldl_cons, step_amp hfree]
        rfl
      rw [step_amp hfree] at ih
      have hone : fill parent ['&'] = parent := by simp [fill]
      have hdeep : (s.deepen n).Free := hfree
      rw [hone, List.append_assoc, hp _ hdeep, ih, hrun, List.modifyHead_modifyHead]
      exact modifyHead_congr (fun p => (List.append_assoc parent (fill parent cs) p).symm) _
    · have hone : fill parent [c] = [c] := by simp [fill, hc]
      rw [hone, List.append_assoc, List.singleton_append, pieces, cutsAt_deepen hcut, step_deepen hsound, ih]
      simp only [Bool.false_eq_true, if_false, List.modifyHead_modifyHead]
      exact modifyHead_congr (fun p => rfl) _

theorem neutral_fill (hp : Neutral parent) (h : Uncut {} cs) (hend : Scan.run {} cs = {}) :
    Neutral (fill parent cs) := by
  intro s hs rest
  obtain ⟨depth, quote, escaped⟩ := s
  obtain ⟨rfl, rfl⟩ := hs
  have hlift : Scan.deepen {} depth = { depth } := by simp [Scan.deepen]
  have hfill := pieces_fill_of_neutral hp h depth rest
  rwa [hend, hlift] at hfill

/-! ## The pieces of a well-formed key -/

theorem Scan.Proper.run (h : s.Proper) (cs : List Char) : (s.run cs).Proper := by
  induction cs generalizing s with
  | nil => exact h
  | cons c rest ih => exact ih (h.step c)

theorem plain_of_isBlank {c : Char} (h : Text.isBlank c = true) : Plain c := by
  have hall : Text.blanks.all (fun c => decide (Plain c)) = true := by decide
  exact of_decide_eq_true (List.all_eq_true.mp hall c (List.contains_iff_mem.mp h))

/-- Blanks leave a scan as it is unless the first of them is escaped. -/
theorem run_blanks {blanks : List Char} (h : ∀ c ∈ blanks, Text.isBlank c = true) (hs : s.Proper)
    (he : s.escaped = false) : s.run blanks = s := by
  induction blanks with
  | nil => rfl
  | cons c rest ih =>
    have hstep : s.step c = s := Scan.step_plain (plain_of_isBlank (h c List.mem_cons_self)) hs he
    have hrun : s.run (c :: rest) = (s.step c).run rest := rfl
    rw [hrun, hstep]
    exact ih fun d hd => h d (List.mem_cons_of_mem _ hd)

/-- A text that is scanned soundly and without a cut and leaves nothing open. -/
structure Whole (cs : List Char) : Prop where
  uncut : Uncut {} cs
  ends : Scan.run {} cs = {}

theorem pieces_whole (h : Throughout Scan.Sound s cs) (he : s.run cs = {}) :
    ∃ p ps, pieces s cs = p :: ps ∧ (Uncut s p ∧ s.run p = {}) ∧ ∀ q ∈ ps, Whole q := by
  induction cs generalizing s with
  | nil => exact ⟨[], [], rfl, ⟨trivial, he⟩, fun _ hq => absurd hq List.not_mem_nil⟩
  | cons c rest ih =>
    obtain ⟨p, ps, hps, hp, hall⟩ := ih h.2 he
    rw [pieces]
    cases hcut : s.cutsAt c with
    | false => exact ⟨c :: p, ps, by rw [hps]; rfl, ⟨⟨⟨h.1, hcut⟩, hp.1⟩, hp.2⟩, hall⟩
    | true =>
      obtain ⟨rfl, rfl⟩ := Scan.start_of_cutsAt hcut
      refine ⟨[], p :: ps, by rw [hps]; rfl, ⟨trivial, rfl⟩, fun q hq => ?_⟩
      rcases List.mem_cons.mp hq with rfl | hq
      · exact ⟨hp.1, hp.2⟩
      · exact hall q hq

theorem Closed.whole {key : String} (h : Closed key) : ∀ p ∈ pieces {} key.toList, Whole p := by
  obtain ⟨p, ps, hps, hp, hall⟩ := pieces_whole h.sound h.ends
  intro q hq
  rw [hps] at hq
  rcases List.mem_cons.mp hq with rfl | hq
  · exact ⟨hp.1, hp.2⟩
  · exact hall q hq

theorem Throughout.trimChars {ok : Scan → Char → Prop} (h : Throughout ok {} cs) :
    Throughout ok {} (Text.trimChars cs) := by
  obtain ⟨front, back, hcs, hfront, -⟩ := Text.exists_blanks_trimChars cs
  have hstart : Scan.run {} front = {} := run_blanks hfront Scan.proper_start rfl
  have hright : Throughout ok (Scan.run {} front) (Text.trimChars cs ++ back) := (hcs ▸ h).right
  rw [hstart] at hright
  exact hright.left

/-- Behind the trimmed text an escape may be pending, and nothing else. -/
theorem run_trimChars (h : Scan.run {} cs = {}) :
    Scan.run {} (Text.trimChars cs) = { escaped := trimsEscaped cs } := by
  obtain ⟨front, back, hcs, hfront, hback⟩ := Text.exists_blanks_trimChars cs
  have hproper : (Scan.run {} (Text.trimChars cs)).Proper := Scan.proper_start.run _
  have hrest : (Scan.run {} (Text.trimChars cs)).run back = {} := by
    rwa [hcs, run_append, run_append, run_blanks hfront Scan.proper_start rfl] at h
  rw [trimsEscaped]
  generalize Scan.run {} (Text.trimChars cs) = t at hproper hrest
  obtain ⟨depth, quote, escaped⟩ := t
  cases escaped with
  | false =>
    rw [run_blanks hback hproper rfl] at hrest
    rw [hrest]
  | true =>
    cases back with
    | nil => cases hrest
    | cons b back =>
      -- the blank that is escaped uses the escape up
      have hstep : Scan.step ⟨depth, quote, true⟩ b = ⟨depth, quote, false⟩ := by simp [Scan.step]
      have hblanks : (Scan.step ⟨depth, quote, true⟩ b).run back = {} := hrest
      rw [run_blanks (fun c hc => hback c (List.mem_cons_of_mem _ hc)) (hproper.step b) (by rw [hstep]),
        hstep] at hblanks
      cases hblanks
      rfl

theorem Whole.trim (h : Whole cs) (ht : trimsEscaped cs = false) : Whole (Text.trimChars cs) := by
  refine ⟨h.uncut.trimChars, ?_⟩
  rw [run_trimChars h.ends, ht]

/-! ## Parts below a root -/

/-- A part of a selector list that may stand anywhere outside quotes and has the root in it. -/
structure Part (root cs : List Char) : Prop where
  neutral : Neutral cs
  head : ∃ c rest, cs = c :: rest ∧ Text.isBlank c = false
  last : ∃ c rest, cs = rest ++ [c] ∧ Text.isBlank c = false
  within : root <:+: cs

variable {root : List Char}

/-- A part of a key: a whole text that is not empty and has no blanks at its ends. -/
structure Piece (cs : List Char) : Prop extends Whole cs where
  head : ∃ c rest, cs = c :: rest ∧ Text.isBlank c = false
  last : ∃ c rest, cs = rest ++ [c] ∧ Text.isBlank c = false

theorem WellFormed.piece {key : String} (h : WellFormed key) : ∀ k ∈ split key, Piece k.toList := by
  intro k hk
  obtain ⟨p, hp, rfl⟩ := List.mem_map.mp hk
  rw [String.toList_ofList]
  have hne := h.parts p hp
  refine ⟨(h.whole p hp).trim (h.trims p hp), ?_, ?_⟩
  · obtain ⟨c, rest, he⟩ := List.exists_cons_of_ne_nil hne
    exact ⟨c, rest, he, Text.isBlank_of_trimChars_eq_cons he⟩
  · have he := (List.dropLast_concat_getLast hne).symm
    exact ⟨_, _, he, Text.isBlank_of_trimChars_eq_append he⟩

/-- A part that does not mention its parent stands behind it. -/
def withParent (cs : List Char) : List Char := if '&' ∈ cs then cs else '&' :: ' ' :: cs

theorem toList_attach (parent child : String) :
    (attach parent child).toList = fill parent.toList (withParent child.toList) := by
  unfold attach withParent mentionsParent
  by_cases hm : '&' ∈ child.toList
  · rw [if_pos (List.contains_iff_mem.mpr hm), if_pos hm, toList_substitute]
  · have hfill : fill parent.toList ('&' :: ' ' :: child.toList) =
        parent.toList ++ (' ' :: fill parent.toList child.toList) := rfl
    rw [if_neg fun hc => hm (List.contains_iff_mem.mp hc), if_neg hm, hfill, fill_of_not_mem hm]
    simp

theorem Piece.withParent (h : Piece cs) : Piece (withParent cs) := by
  unfold Selector.withParent
  split
  · exact h
  · have huncut : Uncut {} ('&' :: ' ' :: cs) := ⟨by decide, by decide, h.uncut⟩
    refine ⟨⟨huncut, h.ends⟩, ⟨'&', _, rfl, by decide⟩, ?_⟩
    obtain ⟨c, rest, rfl, hc⟩ := h.last
    exact ⟨c, '&' :: ' ' :: rest, rfl, hc⟩

/-- Filled with a text that starts with no blank, a text still starts with none. -/
theorem head_fill (hp : ∃ c rest, parent = c :: rest ∧ Text.isBlank c = false)
    (hcs : ∃ c rest, cs = c :: rest ∧ Text.isBlank c = false) :
    ∃ c rest, fill parent cs = c :: rest ∧ Text.isBlank c = false := by
  obtain ⟨d, ds, rfl, hd⟩ := hp
  obtain ⟨c, rest, rfl, hc⟩ := hcs
  by_cases hamp : c = '&'
  · exact ⟨d, ds ++ fill (d :: ds) rest, by simp [fill, hamp], hd⟩
  · exact ⟨c, fill (d :: ds) rest, by simp [fill, hamp], hc⟩

theorem last_fill (hp : ∃ c rest, parent = rest ++ [c] ∧ Text.isBlank c = false)
    (hcs : ∃ c rest, cs = rest ++ [c] ∧ Text.isBlank c = false) :
    ∃ c rest, fill parent cs = rest ++ [c] ∧ Text.isBlank c = false := by
  have hrev : ∀ {l : List Char}, (∃ c rest, l = rest ++ [c] ∧ Text.isBlank c = false) →
      ∃ c rest, l.reverse = c :: rest ∧ Text.isBlank c = false := by
    rintro l ⟨c, rest, rfl, hc⟩
    exact ⟨c, rest.reverse, by simp, hc⟩
  obtain ⟨c, rest, he, hc⟩ := head_fill (hrev hp) (hrev hcs)
  refine ⟨c, rest.reverse, ?_, hc⟩
  rw [← List.reverse_reverse (fill parent cs), reverse_fill, he, List.reverse_cons]

theorem part_attach {p k : String} (hp : Part root p.toList) (hk : Piece k.toList) :
    Part root (attach p k).toList := by
  have hwithin : Within (String.ofList root) (attach p k) :=
    within_attach (by simpa [Within] using hp.within) k
  have hchild := hk.withParent
  have hfill := toList_attach p k
  refine ⟨?_, ?_, ?_, by simpa [Within] using hwithin⟩
  · rw [hfill]; exact neutral_fill hp.neutral hchild.uncut hchild.ends
  · rw [hfill]; exact head_fill hp.head hchild.head
  · rw [hfill]; exact last_fill hp.last hchild.last

/-! ## Cutting what was joined -/

theorem toList_joinList_cons (p q : String) (rest : List String) :
    (joinList (p :: q :: rest)).toList = p.toList ++ ',' :: (joinList (q :: rest)).toList := by
  simp [joinList, String.intercalate_cons_cons]

theorem pieces_joinList {parts : List String} (hne : parts ≠ []) (h : ∀ p ∈ parts, Neutral p.toList) :
    pieces {} (joinList parts).toList = parts.map String.toList := by
  have hfree : Scan.Free {} := ⟨rfl, rfl⟩
  induction parts with
  | nil => exact absurd rfl hne
  | cons p rest ih =>
    have hp : Neutral p.toList := h p List.mem_cons_self
    cases rest with
    | nil =>
      have hpieces := hp {} hfree []
      rw [List.append_nil] at hpieces
      simpa [joinList, pieces] using hpieces
    | cons q rest =>
      have ih := ih (List.cons_ne_nil _ _) fun r hr => h r (List.mem_cons_of_mem _ hr)
      have hcut : pieces {} (',' :: (joinList (q :: rest)).toList) =
          [] :: pieces {} (joinList (q :: rest)).toList := rfl
      rw [toList_joinList_cons, hp {} hfree, hcut, ih]
      simp

/-- Cutting a joined list gives the parts that were joined. -/
theorem split_joinList {parts : List String} (hne : parts ≠ []) (h : ∀ p ∈ parts, Part root p.toList) :
    split (joinList parts) = parts := by
  rw [split, pieces_joinList hne fun p hp => (h p hp).neutral, List.map_map]
  refine (List.map_congr_left fun p hp => ?_).trans (List.map_id parts)
  show String.ofList (Text.trimChars p.toList) = p
  rw [Text.trimChars_of_ends (h p hp).head (h p hp).last, String.ofList_toList]

/-- A joined list of parts with the root in them. -/
def Scoped (root s : String) : Prop :=
  ∃ parts, parts ≠ [] ∧ s = joinList parts ∧ ∀ p ∈ parts, Part root.toList p.toList

theorem scoped_root {root : String} (hr : Solid root.toList) : Scoped root root := by
  refine ⟨[root], List.cons_ne_nil _ _, by simp [joinList], fun p hp => ?_⟩
  obtain rfl := List.mem_singleton.mp hp
  refine ⟨fun s hs rest => ?_, hr.head, hr.last, List.infix_refl _⟩
  have hproper : s.Proper := fun q hq => absurd (hs.1.symm.trans hq) (by simp)
  rw [hr.pieces_append s hproper, step_amp hs]

/-- What is composed under a well-formed key has the root in every part. -/
theorem Scoped.compose {root parent key : String} (h : Scoped root parent) (hk : WellFormed key) :
    Scoped root (compose parent key) := by
  obtain ⟨parts, hne, rfl, hparts⟩ := h
  refine ⟨_, ?_, rfl, fun p hp => ?_⟩
  · rw [split_joinList hne hparts]
    obtain ⟨p, rest, rfl⟩ := List.exists_cons_of_ne_nil hne
    simp [split_ne_nil]
  · rw [split_joinList hne hparts] at hp
    obtain ⟨q, hq, hp⟩ := List.mem_flatMap.mp hp
    obtain ⟨k, hk', rfl⟩ := List.mem_map.mp hp
    exact part_attach (hparts q hq) (hk.piece k hk')

theorem Scoped.within {root s : String} (h : Scoped root s) : ∀ part ∈ split s, Within root part := by
  obtain ⟨parts, hne, rfl, hparts⟩ := h
  rw [split_joinList hne hparts]
  exact fun part hp => (hparts part hp).within

theorem pieces_replicate (s : Scan) (n : Nat) : pieces s (List.replicate n '&') = [List.replicate n '&'] :=
  pieces_of_not_mem (fun hm => absurd (List.eq_of_mem_replicate hm) (by decide)) s

theorem trimChars_replicate (n : Nat) : Text.trimChars (List.replicate (n + 1) '&') = List.replicate (n + 1) '&' :=
  Text.trimChars_of_ends ⟨'&', List.replicate n '&', rfl, by decide⟩
    ⟨'&', List.replicate n '&', List.replicate_succ', by decide⟩

/-- `&` repeated is a well-formed key. -/
theorem wellFormed_replicate (n : Nat) : WellFormed (String.ofList (List.replicate (n + 1) '&')) := by
  have hrun : ∀ m, Scan.run {} (List.replicate m '&') = {} := by
    intro m
    induction m with
    | zero => rfl
    | succ m ih => exact ih
  have hsound : ∀ m, Throughout Scan.Sound {} (List.replicate m '&') := by
    intro m
    induction m with
    | zero => trivial
    | succ m ih => exact ⟨by decide, ih⟩
  refine ⟨⟨?_, ?_, fun p hp => ?_⟩, fun p hp => ?_⟩
  · rw [String.toList_ofList]; exact hrun _
  · rw [String.toList_ofList]; exact hsound _
  · rw [String.toList_ofList, pieces_replicate, List.mem_singleton] at hp
    rw [hp, trimChars_replicate]
    exact List.cons_ne_nil _ _
  · rw [String.toList_ofList, pieces_replicate, List.mem_singleton] at hp
    rw [hp, trimsEscaped, trimChars_replicate, hrun]

end Selector

end StyleEngine
