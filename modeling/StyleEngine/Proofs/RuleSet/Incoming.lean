import StyleEngine.Proofs.RuleSet.Merge

/-!
# What a key tells of a rule

Flat rules, blocks and the compiled rules of a style come to a rule set under keys that join their texts. As
long as no separator stands in a part that another part follows, two rules have one key exactly when they have
in common what the key is made of. The keys of literal selectors and of keyframes leave the content out, and
shared keys the head. A rule that agrees with none of those before it is stored as it is (`keys_tell_rules`).
A separator in a selector or an at-rule can be taken for the one that joins the key, and then a rule is lost
to a different one (`keys_confuse_rules`).
-/

namespace StyleEngine

namespace RuleKey

/-- The part of the key that another part follows has no separator in it. -/
def Parted : RuleKey → Prop
  | unique head _ | owned head _ | atRule head _ => AllChars Unseparated head
  | shared _ | literal _ | keyframes _ => True

/-- The selectors, the at-rule or the name in the key. -/
def head? : RuleKey → Option String
  | unique head _ | owned head _ | atRule head _ | literal head | keyframes head => some head
  | shared _ => none

/-- The declarations or the body in the key. -/
def content? : RuleKey → Option String
  | shared content | unique _ content | owned _ content | atRule _ content => some content
  | literal _ | keyframes _ => none

theorem eq_of_parts {k l : RuleKey} (hletter : k.letter = l.letter) (hhead : k.head? = l.head?)
    (hcontent : k.content? = l.content?) : k = l := by
  cases k <;> cases l <;> simp_all [letter, head?, content?]

theorem halves_eq_of_chars {c : Char} {a b a' b' : String} (ha : AllChars Unseparated a)
    (ha' : AllChars Unseparated a')
    (h : c :: '\x01' :: (a.toList ++ '\x01' :: b.toList) = c :: '\x01' :: (a'.toList ++ '\x01' :: b'.toList)) :
    a = a' ∧ b = b' := by
  have hcut : a.toList ++ '\x01' :: b.toList = a'.toList ++ '\x01' :: b'.toList :=
    (List.cons.inj (List.cons.inj h).2).2
  -- without separators in the heads, the first one that is met ends both of them
  obtain ⟨h₁, h₂⟩ := first_halves_eq (fun hc => ha _ hc rfl) (fun hc => ha' _ hc rfl) hcut
  exact ⟨String.toList_inj.mp h₁, String.toList_inj.mp h₂⟩

/-- Keys are told by their texts, whatever their last parts contain. -/
theorem eq_of_text_parted {k l : RuleKey} (hk : k.Parted) (hl : l.Parted) (h : k.text = l.text) : k = l := by
  cases l with
  | shared content => exact eq_of_text_shared h
  | literal head => exact eq_of_text_literal h
  | keyframes name => exact eq_of_text_keyframes h
  | unique head content =>
    rw [text_eq_iff] at h
    cases k with
    | unique => obtain ⟨rfl, rfl⟩ := halves_eq_of_chars hk hl h; rfl
    | shared | owned | literal | atRule | keyframes => cases h
  | owned head content =>
    rw [text_eq_iff] at h
    cases k with
    | owned => obtain ⟨rfl, rfl⟩ := halves_eq_of_chars hk hl h; rfl
    | shared | unique | literal | atRule | keyframes => cases h
  | atRule head content =>
    rw [text_eq_iff] at h
    cases k with
    | atRule => obtain ⟨rfl, rfl⟩ := halves_eq_of_chars hk hl h; rfl
    | shared | unique | owned | literal | keyframes => cases h

end RuleKey

/-- What comes to a rule set: a flat rule, a block, or a compiled rule of the style with the given root. -/
inductive Incoming where
  | flat (sharing : Sharing) (selector : String) (declarations : List Declaration) (unique : Bool)
  | block (rule : String) (body : RuleSet)
  | compiled (root : String) (rule : Rule)

namespace Incoming

/-- The selectors, the at-rule or the name. -/
def head : Incoming → String
  | flat _ selector _ _ => selector
  | block rule _ | compiled _ (.atRule rule _) => rule
  | compiled _ (.style selectors _ _) => Selector.joinList selectors
  | compiled _ (.keyframes name _) => name

/-- The declarations, the body or the frames as they are written. -/
def content : Incoming → String
  | flat _ _ declarations _ => Declaration.cssAll (Declaration.sort declarations)
  | block _ body | compiled _ (.atRule _ body) => RuleSet.css body
  | compiled _ (.style _ declarations _) => Declaration.cssAll declarations
  | compiled _ (.keyframes _ frames) => framesCss frames

def key : Incoming → RuleKey
  | flat sharing selector declarations unique =>
    .ofRule sharing selector (Declaration.cssAll (Declaration.sort declarations)) unique
  | block rule body => .atRule rule (RuleSet.css body)
  | compiled root rule => rule.key (RuleKey.ofStyle root)

/-- The rule that is stored when the key is new. -/
def rule : Incoming → Rule
  | flat sharing selector declarations unique =>
    .style [selector] (Declaration.sort declarations) (unique && sharing = .byDeclarations)
  | block rule body => .atRule rule body
  | compiled _ rule => rule

/-- A flat rule without declarations, or a block without rules. It is never stored. -/
def isVoid : Incoming → Bool
  | flat _ _ declarations _ => declarations.isEmpty
  | block _ body => body.isEmpty
  | compiled _ rule => rule.isVoid

/-- The slots that are stored when the key is new: one, or none for a void rule. -/
def slots (x : Incoming) : RuleSet := if x.isVoid then [] else [(some x.key, x.rule)]

/-- The rule set after it has come. -/
def bring (rules : RuleSet) : Incoming → RuleSet
  | flat sharing selector declarations unique => RuleSet.insertRule sharing rules selector declarations unique
  | block rule body => (RuleSet.insertBlock rules rule body).1
  | compiled root rule => (RuleSet.mergeStyleRule root rules rule).1

/-- The rule set after all of them have come. -/
def bringAll (rules : RuleSet) (xs : List Incoming) : RuleSet := xs.foldl bring rules

/-- Two rules have in common what their keys are made of. The keys of literal selectors and of keyframes leave
the content out, and shared keys the head. -/
def Agrees (x y : Incoming) : Prop :=
  x.key.letter = y.key.letter ∧ (x.key.letter ∉ ['r', 'k'] → x.content = y.content) ∧
    (x.key.letter ≠ 's' → x.head = y.head)

variable {x y : Incoming} {xs : List Incoming}

theorem head?_key (x : Incoming) : x.key.head? = if x.key.letter = 's' then none else some x.head := by
  cases x with
  | flat sharing selector declarations unique => cases sharing <;> cases unique <;> rfl
  | block rule body => rfl
  | compiled root rule =>
    cases rule with
    | atRule | keyframes => rfl
    | style selectors declarations unique =>
      simp only [key, Rule.key, RuleKey.ofStyle]
      split <;> rfl

theorem content?_key (x : Incoming) :
    x.key.content? = if x.key.letter ∈ ['r', 'k'] then none else some x.content := by
  cases x with
  | flat sharing selector declarations unique => cases sharing <;> cases unique <;> rfl
  | block rule body => rfl
  | compiled root rule =>
    cases rule with
    | atRule | keyframes => rfl
    | style selectors declarations unique =>
      simp only [key, Rule.key, RuleKey.ofStyle]
      split <;> rfl

theorem key_eq_iff : x.key = y.key ↔ x.Agrees y := by
  constructor
  · intro h
    refine ⟨by rw [h], fun hr => ?_, fun hs => ?_⟩
    · have hcontent := content?_key x
      rw [h, content?_key y, if_neg (h ▸ hr), if_neg (h ▸ hr)] at hcontent
      exact (Option.some.inj hcontent).symm
    · have hhead := head?_key x
      rw [h, head?_key y, if_neg (h ▸ hs), if_neg (h ▸ hs)] at hhead
      exact (Option.some.inj hhead).symm
  · rintro ⟨hletter, hcontent, hhead⟩
    refine RuleKey.eq_of_parts hletter ?_ ?_
    · rw [head?_key, head?_key, ← hletter]
      split
      · rfl
      · next hs => rw [hhead hs]
    · rw [content?_key, content?_key, ← hletter]
      split
      · rfl
      · next hr => rw [hcontent hr]

theorem text_eq_iff_agrees (hx : x.key.Parted) (hy : y.key.Parted) : x.key.text = y.key.text ↔ x.Agrees y := by
  rw [← key_eq_iff]
  exact ⟨RuleKey.eq_of_text_parted hx hy, congrArg RuleKey.text⟩

/-! ## What is stored -/

theorem bring_eq_depositAll (rules : RuleSet) (x : Incoming) :
    bring rules x = (RuleSet.depositAll rules x.slots).1 := by
  cases x with
  | flat sharing selector declarations unique =>
    rw [bring, RuleSet.insertRule, slots, isVoid]
    split
    · rfl
    · cases sharing <;> cases unique <;> rfl
  | block rule body =>
    rw [bring, RuleSet.insertBlock, slots, isVoid]
    split <;> rfl
  | compiled root rule =>
    have hslots : RuleSet.rekey (RuleKey.ofStyle root) [(none, rule)] = slots (.compiled root rule) := by
      rw [RuleSet.rekey, slots, isVoid, List.filter_cons]
      cases rule.isVoid <;> rfl
    have hmerge := congrArg Prod.fst (RuleSet.mergeStyle_eq_depositAll rules [(none, rule)] root)
    rw [hslots] at hmerge
    exact hmerge

theorem bringAll_eq_depositAll (rules : RuleSet) (xs : List Incoming) :
    bringAll rules xs = (RuleSet.depositAll rules (xs.flatMap slots)).1 := by
  induction xs generalizing rules with
  | nil => rfl
  | cons x rest ih =>
    have hrest : bringAll (bring rules x) rest = (RuleSet.depositAll (bring rules x) (rest.flatMap slots)).1 := ih _
    rw [List.flatMap_cons, RuleSet.depositAll_append, ← bring_eq_depositAll, ← hrest]
    rfl

theorem key_of_mem_slots {slot : Option RuleKey × Rule} (h : slot ∈ x.slots) : slot.1 = some x.key := by
  rw [slots] at h
  split at h
  · exact absurd h List.not_mem_nil
  · rw [List.mem_singleton.mp h]

/-- Every stored rule stands under the key of one that came. -/
theorem key_of_mem_bringAll {slot : Option RuleKey × Rule} (h : slot ∈ bringAll [] xs) :
    ∃ y ∈ xs, slot.1 = some y.key := by
  rw [bringAll_eq_depositAll] at h
  obtain ⟨first, hfirst, he⟩ := RuleSet.mem_depositAll h
  obtain ⟨y, hy, hslot⟩ := List.mem_flatMap.mp (hfirst.resolve_left List.not_mem_nil)
  exact ⟨y, hy, he.key_eq.trans (key_of_mem_slots hslot)⟩

/-- A rule whose key is new is stored as it is. -/
theorem bring_of_absent {rules : RuleSet} (h : ∀ slot ∈ rules, RuleSet.holds x.key slot = false) :
    bring rules x = rules ++ x.slots := by
  rw [bring_eq_depositAll, slots]
  split
  · exact (List.append_nil rules).symm
  · exact congrArg Prod.fst (RuleSet.place_of_absent h)

/-- Keys tell rules apart by exactly what they are made of, whatever the contents are, and a rule is stored as
it is unless it agrees with one before it. -/
theorem keys_tell_rules (hx : x.key.Parted) :
    (∀ y : Incoming, y.key.Parted → (x.key.text = y.key.text ↔ x.Agrees y)) ∧
    ∀ ys : List Incoming, (∀ y ∈ ys, y.key.Parted ∧ ¬ x.Agrees y) →
      bring (bringAll [] ys) x = bringAll [] ys ++ x.slots := by
  refine ⟨fun y hy => text_eq_iff_agrees hx hy, fun ys hys => bring_of_absent fun slot hslot => ?_⟩
  obtain ⟨y, hy, hkey⟩ := key_of_mem_bringAll hslot
  obtain ⟨hparted, hunlike⟩ := hys y hy
  rw [← Bool.not_eq_true]
  intro hholds
  -- a slot with the text of the key would stand under the key of a rule that agrees
  obtain ⟨k, hk, htext⟩ := RuleSet.exists_key_of_holds hholds
  obtain rfl : k = y.key := Option.some.inj (hk.symm.trans hkey)
  exact hunlike ((text_eq_iff_agrees hx hparted).mp htext.symm)

/-- A unique rule whose block has a separator in it. -/
def marked : Incoming := .flat .byDeclarations "a" [⟨"content", "\x01"⟩] true

/-- The same selector with another block. -/
def plain : Incoming := .flat .byDeclarations "a" [⟨"color", "red"⟩] true

theorem keys_tell_rules_marked :
    marked.key.Parted ∧ (plain.key.Parted ∧ ¬ marked.Agrees plain) ∧
    bring (bringAll [] [plain]) marked = bringAll [] [plain] ++ marked.slots := by
  have ha : AllChars Unseparated "a" := by decide
  have hy : plain.key.Parted ∧ ¬ marked.Agrees plain := ⟨ha, fun h => absurd (h.2.1 (by decide)) (by decide)⟩
  exact ⟨ha, hy, (keys_tell_rules (x := marked) ha).2 [plain] fun y hm => List.mem_singleton.mp hm ▸ hy⟩

/-- Two blocks under one literal selector have one key, and two different blocks have one key when a separator
stands in an at-rule: the later block is not stored. -/
theorem keys_confuse_rules :
    let red : Incoming := .flat .bySelector "a" [⟨"color", "red"⟩] false
    let blue : Incoming := .flat .bySelector "a" [⟨"color", "blue"⟩] false
    let body (selector : String) : RuleSet := bring [] (.flat .bySelector selector [⟨"color", "red"⟩] false)
    let first : Incoming := .block "@a" (body "b\x01c")
    let second : Incoming := .block "@a\x01b" (body "c")
    (red.key.text = blue.key.text ∧ red.content ≠ blue.content ∧
      RuleSet.css (bringAll [] [red, blue]) = "a\x7bcolor:blue\x7d") ∧
    first.key.text = second.key.text ∧ first.head ≠ second.head ∧ first.content ≠ second.content ∧
      RuleSet.css (bringAll [] [first, second]) = "@a\x7bb\x01c\x7bcolor:red\x7d\x7d" := by
  decide +kernel

end Incoming

end StyleEngine
