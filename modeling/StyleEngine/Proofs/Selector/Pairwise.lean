import Mathlib.Data.List.Basic
import StyleEngine.Proofs.Selector.Rejoin

/-!
# Composing well-formed lists

A part of a well-formed list is a whole text: a scan leaves it as it came, and so it does with whole texts put in
place of every `&`, at any depth of brackets (`Whole.fill`). So what is composed of two well-formed lists is
well-formed again and is cut into the parts that were composed, pair by pair, and composing in one step or in two
is the same (`compose_wellFormed`). Without the condition on trimming none of this holds (`hidden_escape_breaks_lists`).
-/

namespace StyleEngine.Selector

variable {s : Scan} {a b cs parent : List Char} {p k q : String} {parts : List String}

/-! ## Whole texts below whole texts -/

theorem Throughout.append {ok : Scan → Char → Prop} (ha : Throughout ok s a) (hb : Throughout ok (s.run a) b) :
    Throughout ok s (a ++ b) := by
  induction a generalizing s with
  | nil => exact hb
  | cons c rest ih => exact ⟨ha.1, ih ha.2 hb⟩

theorem Throughout.mono {ok ok' : Scan → Char → Prop} (h : Throughout ok s cs) (hok : ∀ s c, ok s c → ok' s c) :
    Throughout ok' s cs := by
  induction cs generalizing s with
  | nil => trivial
  | cons c rest ih => exact ⟨hok s c h.1, ih h.2⟩

theorem Scan.Sound.deepen {c : Char} (h : s.Sound c) (n : Nat) : (s.deepen n).Sound c := by
  refine ⟨fun hfree hclose => ?_, h.2⟩
  have hdepth : s.depth ≠ 0 := h.1 hfree hclose
  show s.depth + n ≠ 0
  omega

/-- Further down in brackets the text is scanned as before. -/
theorem Uncut.deepen (h : Uncut s cs) (n : Nat) :
    Uncut (s.deepen n) cs ∧ (s.deepen n).run cs = (s.run cs).deepen n := by
  induction cs generalizing s with
  | nil => exact ⟨trivial, rfl⟩
  | cons c rest ih =>
    obtain ⟨⟨hsound, hcut⟩, hrest⟩ := h
    obtain ⟨huncut, hrun⟩ := ih hrest
    rw [← step_deepen hsound] at huncut hrun
    exact ⟨⟨⟨hsound.deepen n, cutsAt_deepen hcut n⟩, huncut⟩, hrun⟩

/-- Outside quotes a whole text leaves every scan as it came. -/
theorem Whole.of_free (h : Whole cs) (hs : s.Free) : Uncut s cs ∧ s.run cs = s := by
  have hlift : Scan.deepen {} s.depth = s := by
    obtain ⟨depth, quote, escaped⟩ := s
    obtain ⟨rfl, rfl⟩ := hs
    simp [Scan.deepen]
  have hdeep := h.uncut.deepen s.depth
  rwa [h.ends, hlift] at hdeep

theorem uncut_fill (hp : Whole parent) (h : Uncut s cs) :
    Uncut s (fill parent cs) ∧ s.run (fill parent cs) = s.run cs := by
  induction cs generalizing s with
  | nil => exact ⟨trivial, rfl⟩
  | cons c rest ih =>
    obtain ⟨huncut, hrun⟩ := ih h.2
    by_cases hc : c = '&'
    · subst hc
      have hfree : s.Free := h.1.1.2 rfl
      obtain ⟨hparent, hend⟩ := hp.of_free hfree
      have hfill : fill parent ('&' :: rest) = parent ++ fill parent rest := by simp [fill]
      rw [step_amp hfree] at huncut hrun
      rw [hfill, run_append, hend, hrun]
      refine ⟨hparent.append (by rwa [hend]), ?_⟩
      show s.run rest = (s.step '&').run rest
      rw [step_amp hfree]
    · have hfill : fill parent (c :: rest) = c :: fill parent rest := by simp [fill, hc]
      rw [hfill]
      exact ⟨⟨h.1, huncut⟩, hrun⟩

theorem Whole.fill (hp : Whole parent) (h : Whole cs) : Whole (Selector.fill parent cs) := by
  obtain ⟨huncut, hrun⟩ := uncut_fill hp h.uncut
  exact ⟨huncut, hrun.trans h.ends⟩

theorem Whole.neutral (h : Whole cs) : Neutral cs := by
  intro s hs rest
  obtain ⟨huncut, hrun⟩ := h.of_free hs
  have hpieces := pieces_append_of_unbroken (huncut.mono fun _ _ hc => hc.2) rest
  rwa [hrun] at hpieces

/-! ## Pieces below pieces -/

theorem Piece.attach (hp : Piece p.toList) (hk : Piece k.toList) : Piece (Selector.attach p k).toList := by
  have hchild := hk.withParent
  rw [toList_attach]
  exact ⟨hp.toWhole.fill hchild.toWhole, head_fill hp.head hchild.head, last_fill hp.last hchild.last⟩

/-- Every text has the empty root in it. -/
theorem Piece.part (h : Piece cs) : Part [] cs := ⟨h.toWhole.neutral, h.head, h.last, List.nil_infix⟩

theorem split_joinList_of_piece (hne : parts ≠ []) (h : ∀ p ∈ parts, Piece p.toList) :
    split (joinList parts) = parts :=
  split_joinList hne fun p hp => (h p hp).part

theorem Whole.sound (h : Whole cs) : Throughout Scan.Sound {} cs := h.uncut.mono fun _ _ hc => hc.1

/-- A scan passes a joined list of whole texts soundly and leaves nothing open. -/
theorem sound_joinList (h : ∀ p ∈ parts, Whole p.toList) :
    Throughout Scan.Sound {} (joinList parts).toList ∧ Scan.run {} (joinList parts).toList = {} := by
  induction parts with
  | nil => exact ⟨trivial, rfl⟩
  | cons p rest ih =>
    obtain ⟨hp, hrest⟩ := List.forall_mem_cons.mp h
    cases rest with
    | nil =>
      have hone : joinList [p] = p := by simp [joinList]
      rw [hone]
      exact ⟨hp.sound, hp.ends⟩
    | cons q rest =>
      obtain ⟨hsound, hends⟩ := ih hrest
      rw [toList_joinList_cons, run_append, hp.ends]
      refine ⟨hp.sound.append ?_, hends⟩
      rw [hp.ends]
      exact ⟨by decide, hsound⟩

theorem wellFormed_joinList (hne : parts ≠ []) (h : ∀ p ∈ parts, Piece p.toList) : WellFormed (joinList parts) := by
  obtain ⟨hsound, hends⟩ := sound_joinList fun p hp => (h p hp).toWhole
  have hpieces : ∀ cs ∈ pieces {} (joinList parts).toList, Piece cs ∧ Text.trimChars cs = cs := by
    rw [pieces_joinList hne fun p hp => (h p hp).toWhole.neutral]
    intro cs hcs
    obtain ⟨p, hp, rfl⟩ := List.mem_map.mp hcs
    exact ⟨h p hp, Text.trimChars_of_ends (h p hp).head (h p hp).last⟩
  refine ⟨⟨hends, hsound, fun cs hcs => ?_⟩, fun cs hcs => ?_⟩
  · obtain ⟨hpiece, htrim⟩ := hpieces cs hcs
    obtain ⟨c, rest, he, -⟩ := hpiece.head
    rw [htrim, he]
    exact List.cons_ne_nil c rest
  · obtain ⟨hpiece, htrim⟩ := hpieces cs hcs
    rw [trimsEscaped, htrim, hpiece.ends]

/-! ## Composition -/

/-- All parts of the second list below all parts of the first, parent by parent. -/
def pairs (parents children : List String) : List String :=
  parents.flatMap fun parent => children.map (attach parent)

theorem piece_pairs {parents children : List String} (hp : ∀ p ∈ parents, Piece p.toList)
    (hc : ∀ k ∈ children, Piece k.toList) : ∀ q ∈ pairs parents children, Piece q.toList := by
  intro q hq
  obtain ⟨p, hmem, hq⟩ := List.mem_flatMap.mp hq
  obtain ⟨k, hk, rfl⟩ := List.mem_map.mp hq
  exact (hp p hmem).attach (hc k hk)

theorem pairs_split_ne_nil (p k : String) : pairs (split p) (split k) ≠ [] := by
  obtain ⟨part, rest, hsplit⟩ := List.exists_cons_of_ne_nil (split_ne_nil p)
  simp [pairs, hsplit, split_ne_nil]

theorem WellFormed.compose (hp : WellFormed p) (hk : WellFormed k) :
    WellFormed (compose p k) ∧ split (compose p k) = pairs (split p) (split k) := by
  have hpieces := piece_pairs hp.piece hk.piece
  exact ⟨wellFormed_joinList (pairs_split_ne_nil p k) hpieces,
    split_joinList_of_piece (pairs_split_ne_nil p k) hpieces⟩

theorem mentionsParent_attach (h : mentionsParent p = true) (k : String) : mentionsParent (attach p k) = true := by
  have hamp : Within "&" p := by
    obtain ⟨u, v, hp⟩ := List.append_of_mem (List.contains_iff_mem.mp h)
    exact ⟨u, v, by simp [hp]⟩
  exact List.contains_iff_mem.mpr ((within_attach hamp k).subset List.mem_cons_self)

theorem attach_of_mentionsParent (h : mentionsParent k = true) (p : String) : attach p k = substitute p k := if_pos h

/-- The `&` of the middle part are all that is left for the outer part to fill. -/
theorem attach_attach (h : mentionsParent k = true) (p q : String) :
    attach (attach p k) q = attach p (attach k q) := by
  rw [attach_of_mentionsParent h, attach_of_mentionsParent (mentionsParent_attach h q), attach_substitute]

theorem pairs_pairs {ps ks qs : List String} (h : ∀ k ∈ ks, mentionsParent k = true) :
    pairs (pairs ps ks) qs = pairs ps (pairs ks qs) := by
  simp only [pairs, List.flatMap_assoc, List.flatMap_map, List.map_flatMap, List.map_map]
  refine List.flatMap_congr fun p _ => List.flatMap_congr fun k hk => ?_
  exact List.map_congr_left fun q _ => attach_attach (h k hk) p q

/-- Composition of well-formed lists. The result is well-formed and has one part for each pair of parts, parent by
parent, and where every part of the second list mentions its parent, composing a third one below both is the same as
composing with their composition. -/
theorem compose_wellFormed (hp : WellFormed p) (hk : WellFormed k) :
    (WellFormed (compose p k) ∧
      split (compose p k) = (split p).flatMap fun parent => (split k).map (attach parent)) ∧
    ∀ q, WellFormed q → (∀ part ∈ split k, mentionsParent part = true) →
      compose (compose p k) q = compose p (compose k q) := by
  refine ⟨hp.compose hk, fun q hq hmentions => ?_⟩
  calc
    compose (compose p k) q = joinList (pairs (split (compose p k)) (split q)) := rfl
    _ = joinList (pairs (pairs (split p) (split k)) (split q)) := by rw [(hp.compose hk).2]
    _ = joinList (pairs (split p) (pairs (split k) (split q))) := by rw [pairs_pairs hmentions]
    _ = joinList (pairs (split p) (split (compose k q))) := by rw [(hk.compose hq).2]
    _ = compose p (compose k q) := rfl

/-- Two parents, a middle list with `&` in brackets and twice, and a child without `&`. -/
theorem compose_wellFormed_lists :
    WellFormed ".a\\,b, [c=\"x,y\"]" ∧ WellFormed ":is(&, d):not(& e), &&" ∧ WellFormed "&:hover , f" ∧
    split (compose ".a\\,b, [c=\"x,y\"]" ":is(&, d):not(& e), &&") =
      [":is(.a\\,b, d):not(.a\\,b e)", ".a\\,b.a\\,b", ":is([c=\"x,y\"], d):not([c=\"x,y\"] e)",
        "[c=\"x,y\"][c=\"x,y\"]"] ∧
    compose (compose ".a\\,b, [c=\"x,y\"]" ":is(&, d):not(& e), &&") "&:hover , f" =
      compose ".a\\,b, [c=\"x,y\"]" (compose ":is(&, d):not(& e), &&" "&:hover , f") := by
  have hp : WellFormed ".a\\,b, [c=\"x,y\"]" := ⟨⟨by decide, by decide, by decide⟩, by decide⟩
  have hk : WellFormed ":is(&, d):not(& e), &&" := ⟨⟨by decide, by decide, by decide⟩, by decide⟩
  have hq : WellFormed "&:hover , f" := ⟨⟨by decide, by decide, by decide⟩, by decide⟩
  obtain ⟨⟨-, hpairs⟩, hassoc⟩ := compose_wellFormed hp hk
  exact ⟨hp, hk, hq, hpairs.trans (by decide), hassoc _ hq (by decide)⟩

/-- Both blanks at the end of the first part are trimmed away, though only the one before the last is escaped. The
backslash that is left escapes the comma behind the part: two parts become one, and a child is put behind both of
them at once or behind each, as it is composed. -/
theorem hidden_escape_breaks_lists :
    (∀ key ∈ ["x\\  ,y", "&", "& c"], Closed key ∧ ∀ part ∈ pieces {} key.toList, endsEscaped part = false) ∧
    mentionsParent "&" = true ∧
    split (compose "x\\  ,y" "&") = ["x\\,y"] ∧
    (split "x\\  ,y").flatMap (fun parent => (split "&").map (attach parent)) = ["x\\", "y"] ∧
    compose (compose "x\\  ,y" "&") "& c" = "x\\,y c" ∧
    compose "x\\  ,y" (compose "&" "& c") = "x\\ c,y c" := by
  have hclosed : ∀ key ∈ ["x\\  ,y", "&", "& c"], Closed key := by
    simp only [List.forall_mem_cons]
    exact ⟨⟨by decide, by decide, by decide⟩, ⟨by decide, by decide, by decide⟩, ⟨by decide, by decide, by decide⟩,
      nofun⟩
  exact ⟨fun key hkey => ⟨hclosed key hkey, by revert key; decide⟩, by decide, by decide, by decide, by decide,
    by decide⟩

end StyleEngine.Selector
