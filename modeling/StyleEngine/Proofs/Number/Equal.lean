import Mathlib
import StyleEngine.Number.Shortest

/-!
# Equal numbers have one text

The text of a number is made from the fields of its bit pattern, and numbers are compared as they are
unpacked. Both read the same sign, significand and exponent (`parts_eq`), so numbers that compare as equal
differ at most in the sign of a zero, which is not written (`format_of_beq`).
-/

namespace StyleEngine.Number

open Float.Model

/-- A sign as the flag that it sets. -/
def isNegative : UnpackedFloat.Sign → Bool
  | .negative => true
  | .positive => false

/-- What an unpacked number says, in the terms of its bit pattern. -/
def ofUnpacked : UnpackedFloat → Parts
  | .notANumber => .nan
  | .infinity sign => .infinite (isNegative sign)
  | .zero sign => .finite (isNegative sign) 0 (-1074)
  | .finite sign mantissa exponent _ => .finite (isNegative sign) mantissa exponent

section Fields

variable (b : BitVec Format.binary64.numBits)

theorem toNat_unpackExponent : (UnpackedFloat.unpackExponent b).toNat = exponentField b.toNat := by
  simp [UnpackedFloat.unpackExponent, exponentField, Nat.shiftRight_eq_div_pow]

theorem toNat_unpackMantissa : (UnpackedFloat.unpackMantissa b).toNat = fractionField b.toNat := by
  simp [UnpackedFloat.unpackMantissa, fractionField]

theorem isNegative_unpackSign :
    isNegative (.ofBitVec (UnpackedFloat.unpackSign b)) = signBit b.toNat := by
  have hlt : b.toNat < 2 ^ 64 := b.isLt
  have hfield : (UnpackedFloat.unpackSign b).toNat = b.toNat / 2 ^ 63 % 2 := by
    simp [UnpackedFloat.unpackSign, Nat.shiftRight_eq_div_pow]
  have hsign : (UnpackedFloat.unpackSign b).toNat = b.toNat / 2 ^ 63 := by omega
  have hzero : UnpackedFloat.unpackSign b = 0#1 ↔ b.toNat < 2 ^ 63 := by
    rw [← BitVec.toNat_inj, hsign]
    simp
  unfold UnpackedFloat.Sign.ofBitVec signBit
  split
  · next h => exact (decide_eq_false (Nat.not_le.mpr (hzero.mp h))).symm
  · next h => exact (decide_eq_true (Nat.not_lt.mp (mt hzero.mpr h))).symm

end Fields

/-- The two readings of a bit pattern say the same. -/
theorem ofBits_eq (b : BitVec Format.binary64.numBits) :
    ofBits b.toNat = ofUnpacked (UnpackedFloat.unpack Format.binary64 b) := by
  have hexponent := toNat_unpackExponent b
  have hfraction := toNat_unpackMantissa b
  have hbias : Format.binary64.exponentBias = 1023 := by decide
  have hones : UnpackedFloat.unpackExponent b = -1#11 ↔ exponentField b.toNat = 2047 := by
    rw [← BitVec.toNat_inj, hexponent]
    rfl
  have hsub : UnpackedFloat.unpackExponent b = 0#11 ↔ exponentField b.toNat = 0 := by
    rw [← BitVec.toNat_inj, hexponent]
    rfl
  have hnone : UnpackedFloat.unpackMantissa b = 0#52 ↔ fractionField b.toNat = 0 := by
    rw [← BitVec.toNat_inj, hfraction]
    rfl
  simp only [UnpackedFloat.unpack, hones, hsub, hnone, hbias, hexponent, hfraction]
  -- both readings tell the exponent fields 2047 and 0 from the others
  by_cases hmax : exponentField b.toNat = 2047
  · simp only [ofBits, hmax, if_true]
    split
    · exact congrArg Parts.infinite (isNegative_unpackSign b).symm
    · rfl
  · by_cases hzero : exponentField b.toNat = 0
    · simp only [ofBits, hzero, Nat.zero_ne_add_one, if_false, if_true]
      split
      · next hm => rw [ofUnpacked, isNegative_unpackSign, hm]
      · next hm => rw [ofUnpacked, isNegative_unpackSign]; rfl
    · have hlt : fractionField b.toNat < 2 ^ 52 := Nat.mod_lt _ (by decide)
      have hmantissa : (1#1 ++ UnpackedFloat.unpackMantissa b).toNat = Nat.pow 2 52 + fractionField b.toNat := by
        rw [BitVec.toNat_append, hfraction, ← Nat.shiftLeft_add_eq_or_of_lt hlt]
        rfl
      simp only [ofBits, hmax, hzero, if_false, ofUnpacked, isNegative_unpackSign, hmantissa]
      exact congrArg _ (by omega)

theorem parts_eq (x : Float) : parts x = ofUnpacked x.toModel.unpack := ofBits_eq x.toBits.toBitVec

theorem sign_eq_of_compare {s t : UnpackedFloat.Sign} (h : compare s t = .eq) : s = t := by
  cases s <;> cases t <;> first | rfl | cases h

theorem magnitude_eq_of_compare {m n : Nat} {e f : Int} (h : (compare e f).then (compare m n) = .eq) :
    e = f ∧ m = n := by
  obtain ⟨he, hm⟩ := Ordering.then_eq_eq.mp h
  exact ⟨Int.compare_eq_eq.mp he, Nat.compare_eq_eq.mp hm⟩

/-- Equal numbers are not NaN, and they differ at most in the sign of zero. -/
theorem text_of_beq {a b : UnpackedFloat} (h : a.beq b = true) :
    a.isNaN = false ∧ b.isNaN = false ∧ partsText (ofUnpacked a) = partsText (ofUnpacked b) := by
  have hcompare : a.compare b = some .eq := by simpa [UnpackedFloat.beq] using h
  cases a with
  | notANumber => cases hcompare
  | infinity s =>
    cases b with
    | notANumber => cases hcompare
    | infinity t =>
      obtain rfl := sign_eq_of_compare (Option.some.inj hcompare)
      exact ⟨rfl, rfl, rfl⟩
    | zero t => cases s <;> cases hcompare
    | finite t => cases s <;> cases hcompare
  | zero s =>
    cases b with
    | notANumber => cases hcompare
    | infinity t => cases t <;> cases hcompare
    | zero t => exact ⟨rfl, rfl, rfl⟩
    | finite t => cases t <;> cases hcompare
  | finite s m e =>
    cases b with
    | notANumber => cases s <;> cases hcompare
    | infinity t => cases s <;> cases t <;> cases hcompare
    | zero t => cases s <;> cases hcompare
    | finite t n f =>
      have hparts : s = t ∧ e = f ∧ m = n := by
        cases s with
        | negative =>
          cases t with
          | negative =>
            have hswap : ((compare e f).then (compare m n)).swap = .eq := Option.some.inj hcompare
            exact ⟨rfl, magnitude_eq_of_compare (Ordering.swap_eq_eq.mp hswap)⟩
          | positive => cases hcompare
        | positive =>
          cases t with
          | negative => cases hcompare
          | positive => exact ⟨rfl, magnitude_eq_of_compare (Option.some.inj hcompare)⟩
      obtain ⟨rfl, rfl, rfl⟩ := hparts
      exact ⟨rfl, rfl, rfl⟩

theorem format_of_beq {x y : Float} (h : (x == y) = true) :
    x.isNaN = false ∧ y.isNaN = false ∧ format x = format y := by
  obtain ⟨hx, hy, htext⟩ := text_of_beq (a := x.toModel.unpack) (b := y.toModel.unpack) h
  refine ⟨hx, hy, ?_⟩
  rw [format, format, parts_eq, parts_eq, htext]

end StyleEngine.Number
