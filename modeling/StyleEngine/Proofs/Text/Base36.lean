import StyleEngine.Proofs.Selector.Root

/-!
# Base 36 numerals

A text is read in base 36 by looking each character up among the digits. Every 32-bit number is written in the one
way that reads back as that number and has no zero in front (`numeral36_base36`), so the text tells the number.
-/

namespace StyleEngine.Text

/-- The digits, in the order of their values. -/
def digitChars36 : List Char := "0123456789abcdefghijklmnopqrstuvwxyz".toList

/-- The number that a text spells. A text without digits spells none. -/
def read36? (s : String) : Option Nat :=
  if s = "" then none else (s.toList.mapM fun c => digitChars36.idxOf? c).map value36

/-- A text spells the number in digits, and only `0` has a zero in front. -/
structure Numeral36 (n : Nat) (s : String) : Prop where
  digits : ∀ c ∈ s.toList, c ∈ digitChars36
  leading : s.toList.head? = some '0' → n = 0 ∧ s = "0"
  value : read36? s = some n

/-! ## Digits -/

theorem digit36_mem : ∀ d < 36, digit36 d ∈ digitChars36 := by decide

theorem idxOf?_digit36 : ∀ d < 36, digitChars36.idxOf? (digit36 d) = some d := by decide

theorem digit36_eq_zero : ∀ d < 36, digit36 d = '0' → d = 0 := by decide

/-- What the digits of numbers below 36 are looked up as. -/
theorem mapM_idxOf?_digit36 {ds : List Nat} (h : ∀ d ∈ ds, d < 36) :
    (ds.map digit36).mapM (fun c => digitChars36.idxOf? c) = some ds := by
  induction ds with
  | nil => rfl
  | cons d ds ih =>
    obtain ⟨hd, hds⟩ := List.forall_mem_cons.mp h
    rw [List.map_cons, List.mapM_cons, idxOf?_digit36 d hd, ih hds]
    rfl

/-- There is no zero in front. -/
theorem head?_digits36 (k : Nat) {n : Nat} (h : n < Nat.pow 36 k) : (digits36 k n).head? ≠ some 0 := by
  induction k generalizing n with
  | zero => simp [digits36]
  | succ k ih =>
    rw [digits36]
    split
    · simp
    next hn =>
      have hpow : Nat.pow 36 (k + 1) = Nat.pow 36 k * 36 := rfl
      have hlt : n / 36 < Nat.pow 36 k := by omega
      by_cases hq : n / 36 = 0
      · -- one digit, which is the number
        have hnil : digits36 k (n / 36) = [] := by
          rw [hq]
          cases k <;> rfl
        rw [hnil, List.nil_append, List.head?_cons]
        intro he
        have hmod : n % 36 = 0 := Option.some.inj he
        omega
      · have hne : digits36 k (n / 36) ≠ [] := by
          cases k with
          | zero => exact absurd (Nat.lt_one_iff.mp hlt) hq
          | succ k => exact digits36_ne_nil k hq
        rw [List.head?_append, Option.or_of_isSome (List.isSome_head?.mpr hne)]
        exact ih hlt

/-! ## Numerals -/

theorem toList_base36 {n : UInt32} (h : n ≠ 0) : (base36 n).toList = (digits36 7 n.toNat).map digit36 := by
  rw [base36, if_neg h, String.toList_ofList]

theorem numeral36_base36 (n : UInt32) : Numeral36 n.toNat (base36 n) := by
  by_cases h : n = 0
  · subst h
    refine ⟨fun c hc => ?_, fun _ => ⟨rfl, rfl⟩, rfl⟩
    have hzero : c ∈ ['0'] := hc
    rw [List.mem_singleton.mp hzero]
    exact digit36_mem 0 (by decide)
  have hn : n.toNat ≠ 0 := fun e => h (UInt32.toNat_inj.mp e)
  have hpow : n.toNat < Nat.pow 36 7 := Nat.lt_trans n.toNat_lt (by decide)
  have hlt := digits36_lt 7 n.toNat
  refine ⟨fun c hc => ?_, fun hzero => ?_, ?_⟩
  · rw [toList_base36 h] at hc
    obtain ⟨d, hd, rfl⟩ := List.mem_map.mp hc
    exact digit36_mem d (hlt d hd)
  · rw [toList_base36 h, List.head?_map] at hzero
    obtain ⟨d, hd, hchar⟩ := Option.map_eq_some_iff.mp hzero
    obtain rfl := digit36_eq_zero d (hlt d (List.mem_of_head? hd)) hchar
    exact absurd hd (head?_digits36 7 hpow)
  · have hne : base36 n ≠ "" := by
      intro he
      have hnil : (digits36 7 n.toNat).map digit36 = [] := by rw [← toList_base36 h, he]; rfl
      exact digits36_ne_nil 6 hn (List.map_eq_nil_iff.mp hnil)
    rw [read36?, if_neg hne, toList_base36 h, mapM_idxOf?_digit36 hlt, Option.map_some,
      value36_digits36 7 n.toNat hpow]

theorem base36_inj {m n : UInt32} : base36 m = base36 n ↔ m = n := by
  refine ⟨fun h => UInt32.toNat_inj.mp ?_, congrArg base36⟩
  have hm := (numeral36_base36 m).value
  rw [h, (numeral36_base36 n).value] at hm
  exact (Option.some.inj hm).symm

theorem underscore_notMem_base36 (n : UInt32) : '_' ∉ (base36 n).toList := fun hm =>
  absurd ((numeral36_base36 n).digits '_' hm) (by decide)

end StyleEngine.Text
