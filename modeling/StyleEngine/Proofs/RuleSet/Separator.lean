import StyleEngine.RuleSet

/-!
# Separators between the rules of a body

A rule set is written rule after rule. Declarations that stand bare in a body are not closed, so the next rule
that is written comes behind a semicolon. Where semicolons stand is said here by position (`Piece.row`): in
front of each written piece for which the last written one before it is bare, and nowhere else. The writer,
which carries a flag along the rules and into the bodies of at-rules, puts them exactly there
(`separators_between_rules`).
-/

namespace StyleEngine

/-- What a rule writes, and whether that is bare declarations. A piece without text is not written. -/
structure Piece where
  text : String
  bare : Bool

namespace Piece

/-- Whether bare declarations are the last that is written, here or else before (`afterBare`). -/
def endsBare (afterBare : Bool) (ps : List Piece) : Bool :=
  ((ps.filter fun p => p.text ≠ "").map bare).getLastD afterBare

/-- A semicolon in front of what is written after bare declarations. -/
def lead (afterBare : Bool) (p : Piece) : String := if p.text ≠ "" ∧ afterBare then ";" else ""

/-- The pieces in order, each behind its lead. -/
def row (afterBare : Bool) (ps : List Piece) : String :=
  String.join (ps.mapIdx fun i p => lead (endsBare afterBare (ps.take i)) p ++ p.text)

variable {afterBare : Bool} {p : Piece} {ps : List Piece}

theorem endsBare_cons (afterBare : Bool) (p : Piece) (ps : List Piece) :
    endsBare afterBare (p :: ps) = endsBare (if p.text = "" then afterBare else p.bare) ps := by
  rw [endsBare, endsBare]
  by_cases h : p.text = ""
  · rw [List.filter_cons_of_neg (by simpa using h), if_pos h]
  · rw [List.filter_cons_of_pos (by simpa using h), if_neg h, List.map_cons, List.getLastD_cons]

theorem row_cons (afterBare : Bool) (p : Piece) (ps : List Piece) :
    row afterBare (p :: ps) =
      lead afterBare p ++ p.text ++ row (if p.text = "" then afterBare else p.bare) ps := by
  rw [row, row, List.mapIdx_cons, String.join_cons]
  simp only [List.take_succ_cons, endsBare_cons]
  rfl

theorem row_append (afterBare : Bool) (ps qs : List Piece) :
    row afterBare (ps ++ qs) = row afterBare ps ++ row (endsBare afterBare ps) qs := by
  induction ps generalizing afterBare with
  | nil => simp [row, endsBare]
  | cons p rest ih => rw [List.cons_append, row_cons, ih, row_cons, endsBare_cons, ← String.append_assoc]

theorem row_of_silent (h : ∀ p ∈ ps, p.text = "") : row afterBare ps = "" := by
  induction ps with
  | nil => rfl
  | cons p rest ih =>
    have hp : p.text = "" := h p List.mem_cons_self
    rw [row_cons, if_pos hp, ih fun q hq => h q (List.mem_cons_of_mem _ hq)]
    simp [lead, hp]

theorem endsBare_of_silent (h : ∀ p ∈ ps, p.text = "") : endsBare afterBare ps = afterBare := by
  rw [endsBare, List.filter_eq_nil_iff.mpr fun p hp => by simp [h p hp]]
  rfl

/-- Pieces that are not written have no influence. -/
theorem row_filter (afterBare : Bool) (ps : List Piece) :
    row afterBare (ps.filter fun p => p.text ≠ "") = row afterBare ps := by
  induction ps generalizing afterBare with
  | nil => rfl
  | cons p rest ih =>
    rw [row_cons]
    by_cases h : p.text = ""
    · rw [List.filter_cons_of_neg (by simpa using h), ih, if_pos h]
      simp [lead, h]
    · rw [List.filter_cons_of_pos (by simpa using h), row_cons, ih]

end Piece

mutual

/-- The declarations of a style rule, in the braces of its selectors unless all of them are empty; an at-rule
around what its body writes; and keyframes under their name. -/
def Rule.piece : Rule → Piece
  | .style selectors declarations _ =>
    { text :=
        if declarations = [] then ""
        else if selectors.all String.isEmpty then Declaration.cssAll declarations
        else braced (Selector.joinList selectors) (Declaration.cssAll declarations)
      bare := selectors.all String.isEmpty }
  | .atRule rule body =>
    { text := if Piece.row false (pieces body) = "" then "" else braced rule (Piece.row false (pieces body))
      bare := false }
  | .keyframes name frames => { text := braced ("@keyframes " ++ name) (framesCss frames), bare := false }

/-- What the rules write, in order. -/
def pieces : List (Option RuleKey × Rule) → List Piece
  | [] => []
  | (_, rule) :: rest => rule.piece :: pieces rest

end

namespace RuleSet

variable {rules : RuleSet} {slot : Option RuleKey × Rule}

theorem isBare_eq_bare (rule : Rule) : rule.isBare = rule.piece.bare := by
  cases rule with
  | style | atRule | keyframes => rfl

mutual

/-- A rule is written as its piece. -/
theorem css_eq_text : ∀ rule : Rule, rule.css = rule.piece.text
  | .style selectors declarations _ => by
    rw [Rule.css, Rule.piece]
    simp only [List.isEmpty_iff]
  | .atRule rule body => by
    rw [Rule.css, Rule.piece, cssFrom_eq_row body false]
    simp only [String.isEmpty_iff]
  | .keyframes _ _ => rfl

/-- Rules are written as the row of their pieces. -/
theorem cssFrom_eq_row : ∀ (rules : List (Option RuleKey × Rule)) (afterBare : Bool),
    cssFrom afterBare rules = Piece.row afterBare (pieces rules)
  | [], _ => rfl
  | (key?, rule) :: rest, afterBare => by
    rw [cssFrom, pieces, Piece.row_cons, Piece.lead, css_eq_text rule, cssFrom_eq_row rest, cssFrom_eq_row rest,
      isBare_eq_bare]
    by_cases h : rule.piece.text = ""
    · simp [h]
    · simp [h]

end

theorem pieces_eq_map (rules : RuleSet) : pieces rules = rules.map (·.2.piece) := by
  induction rules with
  | nil => rfl
  | cons slot rest ih => rw [pieces, ih]; rfl

theorem css_eq_row (rules : RuleSet) : css rules = Piece.row false (rules.map (·.2.piece)) := by
  rw [css, cssFrom_eq_row, pieces_eq_map]

theorem text_of_silent (h : ∀ slot ∈ rules, slot.2.css = "") : ∀ p ∈ rules.map (·.2.piece), p.text = "" := by
  intro p hp
  obtain ⟨slot, hs, rfl⟩ := List.mem_map.mp hp
  rw [← css_eq_text]
  exact h slot hs

/-- The text around one rule. -/
theorem css_append_cons (before after : RuleSet) (slot : Option RuleKey × Rule) :
    ∃ rest, css (before ++ slot :: after) =
      css before ++ Piece.lead (Piece.endsBare false (before.map (·.2.piece))) slot.2.piece ++ slot.2.css ++ rest ∧
      ((∀ s ∈ after, s.2.css = "") → rest = "") := by
  rw [css_eq_row, List.map_append, List.map_cons, Piece.row_append, Piece.row_cons, ← css_eq_row, ← css_eq_text,
    ← String.append_assoc, ← String.append_assoc]
  exact ⟨_, rfl, fun h => Piece.row_of_silent (text_of_silent h)⟩

/-- A rule set is written as its pieces in order, with a semicolon in front of a piece exactly when the last
written one before it is bare. So it begins with its first written rule and ends with its last one, and rules
that write nothing have no influence. -/
theorem separators_between_rules (rules : RuleSet) :
    css rules = Piece.row false (rules.map (·.2.piece)) ∧
    (∀ rule : Rule, rule.css = rule.piece.text) ∧
    (∀ before slot after, rules = before ++ slot :: after →
      ((∀ s ∈ before, s.2.css = "") → ∃ rest, css rules = slot.2.css ++ rest) ∧
      ((∀ s ∈ after, s.2.css = "") → ∃ front, css rules = front ++ slot.2.css)) ∧
    css (rules.filter fun slot => slot.2.css ≠ "") = css rules := by
  refine ⟨css_eq_row rules, css_eq_text, ?_, ?_⟩
  · rintro before slot after rfl
    obtain ⟨rest, he, hrest⟩ := css_append_cons before after slot
    constructor
    · intro h
      have hsilent := text_of_silent h
      refine ⟨rest, ?_⟩
      rw [he, css_eq_row before, Piece.row_of_silent hsilent, Piece.endsBare_of_silent hsilent]
      simp [Piece.lead]
    · intro h
      rw [he, hrest h, String.append_empty]
      exact ⟨_, rfl⟩
  · rw [css_eq_row, css_eq_row, ← Piece.row_filter false (rules.map _), List.filter_map]
    simp only [css_eq_text]
    rfl

/-- Bare declarations, an at-rule around nothing, another one, and bare declarations again. -/
def pageBody : RuleSet :=
  [(none, .style [""] [⟨"margin", "0"⟩] false), (none, .atRule "@media print" []),
    (none, .atRule "@top-left" [(none, .style ["", ""] [⟨"content", "none"⟩] false)]),
    (none, .style [""] [⟨"color", "red"⟩] false)]

theorem separators_between_rules_pageBody :
    css pageBody = "margin:0;@top-left\x7bcontent:none\x7dcolor:red" ∧
    (∃ rest, css pageBody = "margin:0" ++ rest) ∧ (∃ front, css pageBody = front ++ "color:red") ∧
    css (pageBody.filter fun slot => slot.2.css ≠ "") = css pageBody := by
  obtain ⟨hrow, -, hends, hfilter⟩ := separators_between_rules pageBody
  refine ⟨hrow.trans (by decide +kernel), ?_, ?_, hfilter⟩
  · exact (hends [] _ _ rfl).1 fun _ h => absurd h List.not_mem_nil
  · exact (hends (pageBody.take 3) _ [] rfl).2 fun _ h => absurd h List.not_mem_nil

end RuleSet

end StyleEngine
