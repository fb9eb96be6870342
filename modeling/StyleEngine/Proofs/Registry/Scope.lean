import StyleEngine.Proofs.Registry.Addressing
import StyleEngine.Proofs.Registry.Trace
import StyleEngine.Proofs.Selector.Parts

/-!
# Styles stay in their class

Registering a style leaves the lines of a registry where they are and adds its own, each of them with
a selector that the style compiled (`lines_depositAll`). When its keys are well formed, every part of
these selectors has the class in it (`style_stays_in_class`). An escaped blank that is trimmed away
lets a selector out of its class (`leaky_leaves_class`).
-/

namespace StyleEngine

/-- Every key that is not an at-rule is well formed, at any depth. -/
def Description.WellNested (d : Description) : Prop :=
  d.All (fun key => Selector.isAtRule key = false → Selector.WellFormed key) fun _ => True

namespace RuleSet

variable {rules : RuleSet} {S : String → Prop}

/-- The lines of the first rule set are still there, and all that have come satisfy `S` with their
selector. -/
def Adds (S : String → Prop) (before after : RuleSet) : Prop :=
  ∃ added, (lines after).Perm (lines before ++ added) ∧ ∀ line ∈ added, S line.selector

theorem Adds.refl (rules : RuleSet) : Adds S rules rules :=
  ⟨[], by rw [List.append_nil], fun _ h => absurd h List.not_mem_nil⟩

theorem Adds.trans {a b c : RuleSet} (hab : Adds S a b) (hbc : Adds S b c) : Adds S a c := by
  obtain ⟨first, hfirst, hs⟩ := hab
  obtain ⟨second, hsecond, hs'⟩ := hbc
  refine ⟨first ++ second, ?_, fun line hl => ?_⟩
  · rw [← List.append_assoc]
    exact hsecond.trans (hfirst.append_right second)
  · rcases List.mem_append.mp hl with hl | hl
    · exact hs line hl
    · exact hs' line hl

theorem adds_append {slot : Option RuleKey × Rule} (h : ∀ line ∈ slot.2.lines [], S line.selector) :
    Adds S rules (rules ++ [slot]) := by
  refine ⟨slot.2.lines [], ?_, h⟩
  have hone : lines [slot] = slot.2.lines [] := by
    rw [lines_cons]
    exact List.append_nil _
  rw [lines_append, hone]

/-- Gathering adds lines of the rule that is gathered. -/
theorem adds_share {before after : RuleSet} {key? : Option RuleKey} {stored rule : Rule}
    (h : ∀ line ∈ rule.lines [], S line.selector) :
    Adds S (before ++ (key?, stored) :: after)
      (before ++ (key?, (Rule.share rule.selectors stored).1) :: after) := by
  cases stored with
  | atRule | keyframes => exact .refl _
  | style selectors declarations unique =>
    obtain ⟨extra, he, hextra⟩ := Rule.addSelectors_eq_append selectors rule.selectors
    refine ⟨extra.map fun s => ⟨[], s, Declaration.cssAll declarations⟩, ?_, fun line hl => ?_⟩
    · rw [lines_append, lines_append, lines_cons, lines_cons]
      simp only [Rule.share, he, Rule.lines, List.map_append, List.append_assoc]
      exact ((List.perm_append_comm).append_left _).append_left _
    · obtain ⟨s, hs, rfl⟩ := List.mem_map.mp hl
      have hs := hextra s hs
      cases rule with
      | atRule | keyframes => exact absurd hs List.not_mem_nil
      | style own ds u =>
        have hl : Line.mk [] s (Declaration.cssAll ds) ∈ (Rule.style own ds u).lines [] := by
          rw [Rule.lines]
          exact List.mem_map_of_mem hs
        have hown : S s := h _ hl
        exact hown

/-- A deposit for no literal selector takes no line away. -/
theorem adds_deposit {x : Option RuleKey × Rule} (hx : ∀ s, x.1 ≠ some (.literal s))
    (h : ∀ line ∈ x.2.lines [], S line.selector) : Adds S rules (deposit rules x).1 := by
  obtain ⟨key?, rule⟩ := x
  cases key? with
  | none => exact adds_append h
  | some key =>
    rw [deposit]
    rcases absent_or_present rules key with ha | ⟨before, slot, after, rfl, hb, hs⟩
    · rw [place_of_absent ha]
      exact adds_append h
    · rw [place_of_present hb hs]
      by_cases hg : key.Gathers
      · rw [RuleKey.revise_of_gathers hg]
        exact adds_share h
      · have hl : ∀ s, key ≠ .literal s := fun s hs => hx s (congrArg some hs)
        rw [RuleKey.revise_of_not_gathers hg hl]
        exact .refl _

theorem adds_depositAll {xs : List (Option RuleKey × Rule)} (hx : ∀ x ∈ xs, ∀ s, x.1 ≠ some (.literal s))
    (h : ∀ x ∈ xs, ∀ line ∈ x.2.lines [], S line.selector) : Adds S rules (depositAll rules xs).1 := by
  induction xs generalizing rules with
  | nil => exact .refl rules
  | cons x rest ih =>
    have hfirst : Adds S rules (deposit rules x).1 :=
      adds_deposit (hx x List.mem_cons_self) (h x List.mem_cons_self)
    exact hfirst.trans (ih (fun y hy => hx y (List.mem_cons_of_mem _ hy))
      fun y hy => h y (List.mem_cons_of_mem _ hy))

end RuleSet

namespace Registry

variable {d : Description} {debug : Bool} {style : NormalStyle}

theorem all_normalize_of_wellNested (hd : d.WellNested) (h : d.normalize debug = .ok style) :
    style.All (fun key => Selector.isAtRule key = false → Selector.WellFormed key) fun _ => True :=
  all_normalizeAt (fun n _ => Selector.wellFormed_replicate n) (fun _ _ _ _ _ _ => trivial) hd h

/-- All selectors that a well-nested style compiles are lists of parts that the class stands in. -/
theorem all_compile_scoped (hd : d.WellNested) (h : d.normalize debug = .ok style) :
    ∀ slot ∈ compile style (className style),
      slot.2.All (Selector.Scoped (root style)) (fun _ => True) fun _ => True := by
  have hflat := (all_normalize_of_wellNested hd h).flatten (S := Selector.Scoped (root style))
    (A := fun _ => True) (fun _ _ hkey hparent hk => hparent.compose (hk hkey)) (fun _ _ _ => trivial)
    (Selector.scoped_root (solid_root style))
  exact RuleSet.all_ofNodes hflat

/-- Registering a well-nested style adds lines in which every part of the selector holds the class, at
top level and inside at-rules, and changes no line that was there. -/
theorem style_stays_in_class (hd : d.WellNested) {r r' : Registry} {name : String}
    (h : r.registerStyle d debug = .ok (name, r')) :
    RuleSet.Adds (fun s => ∀ part ∈ Selector.split s, Within (Selector.ofClass name) part) r.rules r'.rules := by
  obtain ⟨style, hstyle, rfl, rfl⟩ := exists_style_of_registerStyle h
  rw [rules_update, RuleSet.mergeStyle_eq_depositAll]
  refine RuleSet.adds_depositAll (fun x hx s => ?_) fun x hx line hl => ?_
  · obtain ⟨c, -, -, rfl⟩ := RuleSet.mem_rekey.mp hx
    exact fun hk => RuleSet.ofStyle_ne_literal c.2 s (Option.some.inj hk)
  · obtain ⟨c, hc, -, rfl⟩ := RuleSet.mem_rekey.mp hx
    exact ((all_compile_scoped hd hstyle c hc).selector_of_mem_lines hl).within

/-! ## Nested descriptions -/

theorem all_wrap {K : String → Prop} {E : String × Value → Prop} {key : String} (hk : K key) (hd : d.All K E) :
    (d.wrap key).All K E := by
  refine .mk (fun _ he => absurd he List.not_mem_nil) (fun e he => ?_) fun e he => ?_
  · obtain rfl := List.mem_singleton.mp he
    exact hk
  · obtain rfl := List.mem_singleton.mp he
    exact hd

theorem all_red {K : String → Prop} : red.All K fun _ => True :=
  .mk (fun _ _ => trivial) (fun _ he => absurd he List.not_mem_nil) fun _ he => absurd he List.not_mem_nil

/-- Red below one selector list inside another, with a comma in brackets, under an at-rule. -/
def layered : Description := ((red.wrap "& b, i").wrap "&:is(a, p), q").wrap "@media print"

def layeredStyle : NormalStyle :=
  { nested := [("@media print", { nested := [("&:is(a, p), q", { nested := [("& b, i", redStyle)] })] })] }

theorem style_stays_in_class_layered :
    layered.WellNested ∧
    (run {} blueFirst).registerStyle layered false =
      .ok (className layeredStyle, run {} (blueFirst ++ [.style layered false])) ∧
    RuleSet.Adds (fun s => ∀ part ∈ Selector.split s, Within (Selector.ofClass (className layeredStyle)) part)
      (run {} blueFirst).rules (run {} (blueFirst ++ [.style layered false])).rules := by
  have hnested : layered.WellNested := by
    refine all_wrap (fun h => absurd h (by decide)) (all_wrap (fun _ => ?_) (all_wrap (fun _ => ?_) all_red))
    · exact ⟨⟨by decide, by decide, by decide⟩, by decide⟩
    · exact ⟨⟨by decide, by decide, by decide⟩, by decide⟩
  have hok : (run {} blueFirst).registerStyle layered false =
      .ok (className layeredStyle, run {} (blueFirst ++ [.style layered false])) := rfl
  exact ⟨hnested, hok, style_stays_in_class hnested hok⟩

/-- Red below two keys. The blank at the end of the outer one is trimmed away with the escaped blank
before it, and the backslash that is left escapes the backslash of the inner key. -/
def leaky : Description := (red.wrap "&\\,b").wrap "x\\  "

def leakyStyle : NormalStyle := { nested := [("x\\  ", { nested := [("&\\,b", redStyle)] })] }

theorem leaky_leaves_class :
    leaky.All (fun key => Selector.Closed key ∧ ∀ p ∈ Selector.pieces {} key.toList, Selector.endsEscaped p = false)
      (fun _ => True) ∧
    Registry.registerStyle {} leaky false = .ok (className leakyStyle, run {} [.style leaky false]) ∧
    className leakyStyle = "fzppsx3" ∧
    (run {} [.style leaky false]).css = ".fzppsx3 x\\\\,b\x7bcolor:red\x7d" ∧
    ∃ line ∈ (run {} [.style leaky false]).rules.lines, ∃ part ∈ Selector.split line.selector,
      ¬ Within (Selector.ofClass (className leakyStyle)) part := by
  refine ⟨all_wrap ?_ (all_wrap ?_ all_red), rfl, ?_, ?_, ?_⟩
  · exact ⟨⟨by decide, by decide, by decide⟩, by decide⟩
  · exact ⟨⟨by decide, by decide, by decide⟩, by decide⟩
  · decide +kernel
  · decide +kernel
  · unfold Within
    decide +kernel

end Registry

end StyleEngine
