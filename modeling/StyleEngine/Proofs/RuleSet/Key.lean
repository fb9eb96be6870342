import StyleEngine.Proofs.Text.Chars
import StyleEngine.RuleSet

/-!
# Keys and their texts

The text of a key is a letter for its kind and its parts, joined by a separator. The letter tells the
kinds apart whatever the parts are, and a key whose parts have no separator is told by its text
(`RuleKey.eq_of_text`).
-/

namespace StyleEngine

/-- The characters that may stand in the parts of a key. -/
def Unseparated (c : Char) : Prop := c ≠ '\x01'

instance : DecidablePred Unseparated := fun c => inferInstanceAs (Decidable (c ≠ '\x01'))

namespace RuleKey

/-- No part of the key has a separator in it. -/
def Clean : RuleKey → Prop
  | shared block => AllChars Unseparated block
  | unique selector block => AllChars Unseparated selector ∧ AllChars Unseparated block
  | owned selectors block => AllChars Unseparated selectors ∧ AllChars Unseparated block
  | literal selectors => AllChars Unseparated selectors
  | atRule rule body => AllChars Unseparated rule ∧ AllChars Unseparated body
  | keyframes name => AllChars Unseparated name

/-- The characters of the text of a key. -/
def chars : RuleKey → List Char
  | shared block => 's' :: '\x01' :: block.toList
  | unique selector block => 'u' :: '\x01' :: (selector.toList ++ '\x01' :: block.toList)
  | owned selectors block => 'c' :: '\x01' :: (selectors.toList ++ '\x01' :: block.toList)
  | literal selectors => 'r' :: '\x01' :: selectors.toList
  | atRule rule body => 'b' :: '\x01' :: (rule.toList ++ '\x01' :: body.toList)
  | keyframes name => 'k' :: '\x01' :: name.toList

theorem toList_text (k : RuleKey) : k.text.toList = k.chars := by
  cases k <;> simp [text, chars, separator]

theorem text_eq_iff {k l : RuleKey} : k.text = l.text ↔ k.chars = l.chars := by
  rw [← String.toList_inj, toList_text, toList_text]

/-- The letter that the text of a key begins with. -/
def letter : RuleKey → Char
  | shared _ => 's'
  | unique _ _ => 'u'
  | owned _ _ => 'c'
  | literal _ => 'r'
  | atRule _ _ => 'b'
  | keyframes _ => 'k'

theorem head_text (key : RuleKey) : key.text.toList.head? = some key.letter := by
  rw [toList_text]
  cases key <;> rfl

/-- Shared blocks are told by their text, whatever they contain. -/
theorem eq_of_text_shared {block : String} {k : RuleKey} (h : k.text = (shared block).text) :
    k = shared block := by
  rw [text_eq_iff] at h
  cases k with
  | shared b => simpa [chars, String.toList_inj] using h
  | unique | owned | literal | atRule | keyframes => cases h

/-- Literal selectors are told by their text, whatever they contain. -/
theorem eq_of_text_literal {selectors : String} {k : RuleKey} (h : k.text = (literal selectors).text) :
    k = literal selectors := by
  rw [text_eq_iff] at h
  cases k with
  | literal s => simpa [chars, String.toList_inj] using h
  | shared | unique | owned | atRule | keyframes => cases h

/-- Keyframes are told by their name, whatever it contains. -/
theorem eq_of_text_keyframes {name : String} {k : RuleKey} (h : k.text = (keyframes name).text) :
    k = keyframes name := by
  rw [text_eq_iff] at h
  cases k with
  | keyframes n => simpa [chars, String.toList_inj] using h
  | shared | unique | owned | literal | atRule => cases h

theorem parts_eq_of_chars {c : Char} {a b a' b' : String} (ha : AllChars Unseparated a)
    (hb : AllChars Unseparated b)
    (h : c :: '\x01' :: (a'.toList ++ '\x01' :: b'.toList) = c :: '\x01' :: (a.toList ++ '\x01' :: b.toList)) :
    a' = a ∧ b' = b := by
  have hn : '\x01' ∉ a.toList ∧ '\x01' ∉ b.toList := ⟨fun hc => ha _ hc rfl, fun hc => hb _ hc rfl⟩
  obtain ⟨h₁, h₂⟩ := halves_eq hn.1 hn.2 (List.cons.inj (List.cons.inj h).2).2.symm
  exact ⟨String.toList_inj.mp h₁.symm, String.toList_inj.mp h₂.symm⟩

/-- A key with the text of a clean key is that key. -/
theorem eq_of_text {k l : RuleKey} (hl : l.Clean) (h : k.text = l.text) : k = l := by
  rw [text_eq_iff] at h
  cases l with
  | shared block => exact eq_of_text_shared (text_eq_iff.mpr h)
  | literal selectors => exact eq_of_text_literal (text_eq_iff.mpr h)
  | keyframes name => exact eq_of_text_keyframes (text_eq_iff.mpr h)
  | unique selector block =>
    cases k with
    | unique s b => obtain ⟨rfl, rfl⟩ := parts_eq_of_chars hl.1 hl.2 h; rfl
    | shared | owned | literal | atRule | keyframes => cases h
  | owned selectors block =>
    cases k with
    | owned s b => obtain ⟨rfl, rfl⟩ := parts_eq_of_chars hl.1 hl.2 h; rfl
    | shared | unique | literal | atRule | keyframes => cases h
  | atRule rule body =>
    cases k with
    | atRule s b => obtain ⟨rfl, rfl⟩ := parts_eq_of_chars hl.1 hl.2 h; rfl
    | shared | unique | owned | literal | keyframes => cases h

end RuleKey

end StyleEngine
