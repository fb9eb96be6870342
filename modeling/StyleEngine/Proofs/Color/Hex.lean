import StyleEngine.Color.Parser

/-!
# Hex colors

A text behind `#` is a hex color when it is three digits, each for a doubled one, or three pairs of digits
(`Hex`). The reader takes channels as signed numbers in base 16, so in place of the first digit of a pair it
also accepts a plus sign, which counts as a zero (`unsigned`). Nothing else is accepted (`parse_hash`).
-/

namespace StyleEngine.Color

def lowerDigits : List Char :=
  ['0', '1', '2', '3', '4', '5', '6', '7', '8', '9', 'a', 'b', 'c', 'd', 'e', 'f']

def upperDigits : List Char :=
  ['0', '1', '2', '3', '4', '5', '6', '7', '8', '9', 'A', 'B', 'C', 'D', 'E', 'F']

/-- The digit of value `n`, in either case. -/
def HexDigit (c : Char) (n : Nat) : Prop := lowerDigits[n]? = some c ∨ upperDigits[n]? = some c

instance (c : Char) (n : Nat) : Decidable (HexDigit c n) := inferInstanceAs (Decidable (_ ∨ _))

/-- The channel of a digit that is written twice. -/
def Doubled (c : Char) (channel : UInt8) : Prop := ∃ n, HexDigit c n ∧ channel.toNat = 17 * n

/-- The channel of two digits. -/
def Paired (c d : Char) (channel : UInt8) : Prop :=
  ∃ m n, HexDigit c m ∧ HexDigit d n ∧ channel.toNat = 16 * m + n

/-- What stands behind the `#` of a hex color with the given channels. -/
inductive Hex : List Char → UInt8 → UInt8 → UInt8 → Prop
  | short {r g b : Char} {red green blue : UInt8} (hr : Doubled r red) (hg : Doubled g green)
      (hb : Doubled b blue) : Hex [r, g, b] red green blue
  | long {r r' g g' b b' : Char} {red green blue : UInt8} (hr : Paired r r' red) (hg : Paired g g' green)
      (hb : Paired b b' blue) : Hex [r, r', g, g', b, b'] red green blue

/-- A plus sign counts as a zero. -/
def unsignedDigit (c : Char) : Char := if c = '+' then '0' else c

/-- Six characters with a zero for each plus sign that begins a pair. -/
def unsigned : List Char → List Char
  | [r, r', g, g', b, b'] => [unsignedDigit r, r', unsignedDigit g, g', unsignedDigit b, b']
  | hex => hex

/-- Why a text behind `#` is refused: its length, or a character. -/
def hexFault (hex : List Char) : ColorFault :=
  if hex.all (·.val < 0x80) ∧ (hex.length = 3 ∨ hex.length = 6) then .hexDigit else .hexLength

variable {c d : Char} {n : Nat} {channel : UInt8} {hex : List Char}

/-! ## Digits -/

theorem HexDigit.lt (h : HexDigit c n) : n < 16 := by
  rcases h with h | h
  · exact (List.getElem?_eq_some_iff.mp h).1
  · exact (List.getElem?_eq_some_iff.mp h).1

theorem HexDigit.ne_plus (h : HexDigit c n) : c ≠ '+' := by
  rintro rfl
  rcases h with h | h
  · exact absurd (List.mem_of_getElem? h) (by decide)
  · exact absurd (List.mem_of_getElem? h) (by decide)

theorem HexDigit.ascii (h : HexDigit c n) : c.val < 0x80 := by
  have hall : (lowerDigits ++ upperDigits).all (·.val < 0x80) = true := by decide
  have hmem : c ∈ lowerDigits ++ upperDigits := by
    rcases h with h | h
    · exact List.mem_append_left _ (List.mem_of_getElem? h)
    · exact List.mem_append_right _ (List.mem_of_getElem? h)
  exact of_decide_eq_true (List.all_eq_true.mp hall c hmem)

theorem toNat_lt_of_hexDigit? (h : Number.hexDigit? c = some n) : c.toNat < 128 := by
  have hlt : ∀ hi : Char, c ≤ hi → hi.toNat < 128 → c.toNat < 128 := fun _ hle hhi =>
    Nat.lt_of_le_of_lt hle hhi
  unfold Number.hexDigit? at h
  split at h
  · next hd =>
    rw [Char.isDigit, Bool.and_eq_true, decide_eq_true_eq, decide_eq_true_eq] at hd
    exact hlt '9' hd.2 (by decide)
  · split at h
    · next hl =>
      rw [Bool.and_eq_true, decide_eq_true_eq, decide_eq_true_eq] at hl
      exact hlt 'f' hl.2 (by decide)
    · split at h
      · next hu =>
        rw [Bool.and_eq_true, decide_eq_true_eq, decide_eq_true_eq] at hu
        exact hlt 'F' hu.2 (by decide)
      · cases h

/-- The ranges that the reader tests hold the sixteen digits in both cases. -/
theorem hexDigit?_eq_some_iff : Number.hexDigit? c = some n ↔ HexDigit c n := by
  constructor
  · intro h
    have hall : ∀ k < 128, (Number.hexDigit? (Char.ofNat k)).all
        (fun v => decide (HexDigit (Char.ofNat k) v)) = true := by decide
    have hc := hall c.toNat (toNat_lt_of_hexDigit? h)
    rw [Char.ofNat_toNat, h] at hc
    exact of_decide_eq_true hc
  · intro h
    have hall : ∀ v < 16, lowerDigits[v]?.bind Number.hexDigit? = some v ∧
        upperDigits[v]?.bind Number.hexDigit? = some v := by decide
    obtain ⟨hl, hu⟩ := hall n h.lt
    rcases h with h | h
    · rwa [h] at hl
    · rwa [h] at hu

theorem digitIn?_eq_some_iff : Number.digitIn? 16 c = some n ↔ HexDigit c n := by
  rw [Number.digitIn?, Option.filter_eq_some_iff, hexDigit?_eq_some_iff]
  exact ⟨And.left, fun h => ⟨h, by simpa using h.lt⟩⟩

/-! ## Channels -/

theorem readDigitsIn?_one (c : Char) : Number.readDigitsIn? 16 0 [c] = Number.digitIn? 16 c := by
  simp [Number.readDigitsIn?]

theorem readDigitsIn?_two_eq_some_iff : Number.readDigitsIn? 16 0 [c, d] = some n ↔
    ∃ x y, HexDigit c x ∧ HexDigit d y ∧ 16 * x + y = n := by
  simp [Number.readDigitsIn?, Option.bind_eq_some_iff, digitIn?_eq_some_iff]

theorem hexChannel?_of_ne (h : c ≠ '+') (rest : List Char) :
    hexChannel? (c :: rest) = (Number.readDigitsIn? 16 0 (c :: rest)).map (·.toUInt8) := by
  unfold hexChannel?
  split
  · next he => cases he
  · next he => exact absurd (List.cons.inj he).1 h
  · next he => exact absurd (List.cons.inj he).1 h
  · rfl

theorem toNat_toUInt8 (h : n < 256) : n.toUInt8.toNat = n := by
  rw [Nat.toUInt8_eq, UInt8.toNat_ofNat']
  exact Nat.mod_eq_of_lt h

theorem doubled_iff : (hexChannel? [c]).map (· * 17) = some channel ↔ Doubled c channel := by
  by_cases hc : c = '+'
  · subst hc
    constructor
    · intro h
      cases h
    · rintro ⟨n, hn, -⟩
      exact absurd rfl hn.ne_plus
  · have hval : ∀ n < 16, (n.toUInt8 * 17).toNat = 17 * n := by decide
    rw [hexChannel?_of_ne hc, readDigitsIn?_one, Option.map_map, Option.map_eq_some_iff]
    constructor
    · rintro ⟨n, hn, rfl⟩
      have hdigit := digitIn?_eq_some_iff.mp hn
      exact ⟨n, hdigit, hval n hdigit.lt⟩
    · rintro ⟨n, hn, he⟩
      exact ⟨n, digitIn?_eq_some_iff.mpr hn, UInt8.toNat_inj.mp ((hval n hn.lt).trans he.symm)⟩

/-- Two characters are a channel when both are digits, once a plus sign in front counts as a zero. -/
theorem paired_iff : hexChannel? [c, d] = some channel ↔ Paired (unsignedDigit c) d channel := by
  have hread : ∀ {c : Char}, (Number.readDigitsIn? 16 0 [c, d]).map (·.toUInt8) = some channel ↔
      Paired c d channel := by
    intro c
    rw [Option.map_eq_some_iff]
    constructor
    · rintro ⟨n, hn, rfl⟩
      obtain ⟨x, y, hx, hy, rfl⟩ := readDigitsIn?_two_eq_some_iff.mp hn
      have hx' := hx.lt
      have hy' := hy.lt
      exact ⟨x, y, hx, hy, toNat_toUInt8 (by omega)⟩
    · rintro ⟨x, y, hx, hy, he⟩
      refine ⟨_, readDigitsIn?_two_eq_some_iff.mpr ⟨x, y, hx, hy, rfl⟩, ?_⟩
      rw [← he, Nat.toUInt8_eq, UInt8.ofNat_toNat]
  by_cases hc : c = '+'
  · -- a leading zero adds nothing
    subst hc
    have hzero : Number.readDigitsIn? 16 0 ['0', d] = Number.readDigitsIn? 16 0 [d] := rfl
    have hplus : hexChannel? ['+', d] = (Number.readDigitsIn? 16 0 ['0', d]).map (·.toUInt8) := by
      rw [hzero]
      rfl
    rw [hplus, hread]
    rfl
  · rw [hexChannel?_of_ne hc, hread, unsignedDigit, if_neg hc]

/-! ## Colors -/

/-- The two shapes of a hex color. -/
theorem shape_of_length (h : hex.length = 3 ∨ hex.length = 6) :
    (∃ r g b, hex = [r, g, b]) ∨ ∃ r r' g g' b b', hex = [r, r', g, g', b, b'] := by
  rcases h with h | h
  · match hex, h with
    | [r, g, b], _ => exact .inl ⟨r, g, b, rfl⟩
  · match hex, h with
    | [r, r', g, g', b, b'], _ => exact .inr ⟨r, r', g, g', b, b', rfl⟩

theorem length_unsigned (hex : List Char) : (unsigned hex).length = hex.length := by
  unfold unsigned
  split <;> rfl

theorem Hex.length {red green blue : UInt8} (h : Hex hex red green blue) : hex.length = 3 ∨ hex.length = 6 := by
  cases h with
  | short => exact .inl rfl
  | long => exact .inr rfl

theorem hexChannels?_iff {red green blue : UInt8} :
    hexChannels? hex = some (some red, some green, some blue) ↔ Hex (unsigned hex) red green blue := by
  unfold hexChannels?
  split
  · next r g b =>
    rw [Option.some.injEq, Prod.mk.injEq, Prod.mk.injEq, doubled_iff, doubled_iff, doubled_iff]
    constructor
    · rintro ⟨hr, hg, hb⟩
      exact .short hr hg hb
    · intro h
      cases h with
      | short hr hg hb => exact ⟨hr, hg, hb⟩
  · next r r' g g' b b' =>
    rw [Option.some.injEq, Prod.mk.injEq, Prod.mk.injEq, paired_iff, paired_iff, paired_iff]
    constructor
    · rintro ⟨hr, hg, hb⟩
      exact .long hr hg hb
    · intro h
      cases h with
      | long hr hg hb => exact ⟨hr, hg, hb⟩
  · next hshort hlong =>
    constructor
    · intro h
      cases h
    · intro h
      have hlength := h.length
      rw [length_unsigned] at hlength
      rcases shape_of_length hlength with ⟨r, g, b, he⟩ | ⟨r, r', g, g', b, b', he⟩
      · exact absurd he (hshort r g b)
      · exact absurd he (hlong r r' g g' b b')

theorem Hex.digits {red green blue : UInt8} (h : Hex hex red green blue) : ∀ c ∈ hex, ∃ n, HexDigit c n := by
  cases h with
  | short hr hg hb =>
    obtain ⟨x, hx, -⟩ := hr
    obtain ⟨y, hy, -⟩ := hg
    obtain ⟨z, hz, -⟩ := hb
    simpa using ⟨⟨x, hx⟩, ⟨y, hy⟩, ⟨z, hz⟩⟩
  | long hr hg hb =>
    obtain ⟨x, x', hx, hx', -⟩ := hr
    obtain ⟨y, y', hy, hy', -⟩ := hg
    obtain ⟨z, z', hz, hz', -⟩ := hb
    simpa using ⟨⟨x, hx⟩, ⟨x', hx'⟩, ⟨y, hy⟩, ⟨y', hy'⟩, ⟨z, hz⟩, ⟨z', hz'⟩⟩

/-- Three or six digits are the channels of some color. -/
theorem exists_hex_iff : (∃ red green blue, Hex hex red green blue) ↔
    (hex.length = 3 ∨ hex.length = 6) ∧ ∀ c ∈ hex, ∃ n, HexDigit c n := by
  constructor
  · rintro ⟨red, green, blue, h⟩
    exact ⟨h.length, h.digits⟩
  · rintro ⟨hlength, hdigits⟩
    have hdoubled : ∀ c ∈ hex, ∃ channel, Doubled c channel := by
      intro c hc
      obtain ⟨n, hn⟩ := hdigits c hc
      have hlt := hn.lt
      exact ⟨(17 * n).toUInt8, n, hn, toNat_toUInt8 (by omega)⟩
    have hpaired : ∀ c ∈ hex, ∀ d ∈ hex, ∃ channel, Paired c d channel := by
      intro c hc d hd
      obtain ⟨m, hm⟩ := hdigits c hc
      obtain ⟨n, hn⟩ := hdigits d hd
      have hlt := hm.lt
      have hlt' := hn.lt
      exact ⟨(16 * m + n).toUInt8, m, n, hm, hn, toNat_toUInt8 (by omega)⟩
    rcases shape_of_length hlength with ⟨r, g, b, rfl⟩ | ⟨r, r', g, g', b, b', rfl⟩
    · obtain ⟨red, hr⟩ := hdoubled r (by simp)
      obtain ⟨green, hg⟩ := hdoubled g (by simp)
      obtain ⟨blue, hb⟩ := hdoubled b (by simp)
      exact ⟨red, green, blue, .short hr hg hb⟩
    · obtain ⟨red, hr⟩ := hpaired r (by simp) r' (by simp)
      obtain ⟨green, hg⟩ := hpaired g (by simp) g' (by simp)
      obtain ⟨blue, hb⟩ := hpaired b (by simp) b' (by simp)
      exact ⟨red, green, blue, .long hr hg hb⟩

theorem mem_unsigned (h : c ∈ hex) : c = '+' ∨ c ∈ unsigned hex := by
  unfold unsigned
  split
  · next r r' g g' b b' =>
    by_cases hc : c = '+'
    · exact .inl hc
    · have hself : unsignedDigit c = c := if_neg hc
      simp only [List.mem_cons, List.not_mem_nil, or_false] at h
      rcases h with rfl | rfl | rfl | rfl | rfl | rfl <;> simp [hself]
  · exact .inr h

theorem unsigned_of_not_mem (h : '+' ∉ hex) : unsigned hex = hex := by
  unfold unsigned
  split
  · simp only [List.mem_cons, not_or] at h
    simp [unsignedDigit, Ne.symm h.1, Ne.symm h.2.2.1, Ne.symm h.2.2.2.2.1]
  · rfl

/-! ## Reading -/

theorem ascii_of_hex {red green blue : UInt8} (h : Hex (unsigned hex) red green blue) :
    hex.all (·.val < 0x80) = true := by
  refine List.all_eq_true.mpr fun c hc => decide_eq_true ?_
  rcases mem_unsigned hc with rfl | hm
  · decide
  · obtain ⟨n, hn⟩ := h.digits c hm
    exact hn.ascii

theorem hexChannels?_eq_none_iff : hexChannels? hex = none ↔ ¬ (hex.length = 3 ∨ hex.length = 6) := by
  unfold hexChannels?
  split
  · simp
  · simp
  · next hshort hlong =>
    refine ⟨fun _ hlength => ?_, fun _ => rfl⟩
    rcases shape_of_length hlength with ⟨r, g, b, he⟩ | ⟨r, r', g, g', b, b', he⟩
    · exact hshort r g b he
    · exact hlong r r' g g' b b' he

theorem parseHex_of_hex {red green blue : UInt8} (h : Hex (unsigned hex) red green blue) :
    parseHex hex = .ok (.rgb red green blue none) := by
  rw [parseHex, if_pos (ascii_of_hex h), hexChannels?_iff.mpr h]
  rfl

theorem parseHex_of_not_hex (h : ∀ red green blue, ¬ Hex (unsigned hex) red green blue) :
    parseHex hex = .error (hexFault hex) := by
  unfold parseHex
  split
  · next hall =>
    split
    · next he => exact absurd (hexChannels?_iff.mp he) (h _ _ _)
    · next channels _ he =>
      have hlength : hex.length = 3 ∨ hex.length = 6 := Decidable.byContradiction fun hlength => by
        rw [hexChannels?_eq_none_iff.mpr hlength] at he
        cases he
      rw [hexFault, if_pos ⟨hall, hlength⟩]
    · next he => rw [hexFault, if_neg fun hf => hexChannels?_eq_none_iff.mp he hf.2]
  · next hall => rw [hexFault, if_neg fun hf => hall hf.1]

theorem parse_of_hash {text : String} (h : (Text.trim text).toList = '#' :: hex) :
    parse text = (parseHex hex).mapError (.invalidColor (Text.trim text)) := by
  rw [parse, parseTrimmed, h]
  rfl

/-- A text behind `#` is read as the opaque color of its digits, where a plus sign that begins a pair counts as
a zero, and any other text is refused. Without a plus sign the accepted texts are three or six digits. -/
theorem parse_hash {text : String} {hex : List Char} (h : (Text.trim text).toList = '#' :: hex) :
    (∀ color, parse text = .ok color ↔
      ∃ red green blue, Hex (unsigned hex) red green blue ∧ color = .rgb red green blue none) ∧
    ((∀ red green blue, ¬ Hex (unsigned hex) red green blue) →
      parse text = .error (.invalidColor (Text.trim text) (hexFault hex))) ∧
    ('+' ∉ hex → unsigned hex = hex ∧
      ((∃ color, parse text = .ok color) ↔
        (hex.length = 3 ∨ hex.length = 6) ∧ ∀ c ∈ hex, ∃ n, HexDigit c n)) := by
  rw [parse_of_hash h]
  have hok : ∀ color, (parseHex hex).mapError (StyleError.invalidColor (Text.trim text)) = .ok color ↔
      ∃ red green blue, Hex (unsigned hex) red green blue ∧ color = .rgb red green blue none := by
    intro color
    constructor
    · intro hparse
      by_cases hhex : ∃ red green blue, Hex (unsigned hex) red green blue
      · obtain ⟨red, green, blue, hhex⟩ := hhex
        rw [parseHex_of_hex hhex] at hparse
        exact ⟨red, green, blue, hhex, (Except.ok.inj hparse).symm⟩
      · rw [parseHex_of_not_hex fun red green blue hr => hhex ⟨red, green, blue, hr⟩] at hparse
        cases hparse
    · rintro ⟨red, green, blue, hhex, rfl⟩
      rw [parseHex_of_hex hhex]
      rfl
  refine ⟨hok, fun hnot => by rw [parseHex_of_not_hex hnot]; rfl, fun hplus => ?_⟩
  have hself := unsigned_of_not_mem hplus
  refine ⟨hself, ?_⟩
  rw [← exists_hex_iff]
  constructor
  · rintro ⟨color, hparse⟩
    obtain ⟨red, green, blue, hhex, -⟩ := (hok color).mp hparse
    exact ⟨red, green, blue, hself ▸ hhex⟩
  · rintro ⟨red, green, blue, hhex⟩
    exact ⟨_, (hok _).mpr ⟨red, green, blue, hself.symm ▸ hhex, rfl⟩⟩

/-- A short color with blanks around it is read, four digits are not. -/
theorem parse_hash_orange :
    (Text.trim " #F80\n").toList = '#' :: ['F', '8', '0'] ∧ parse " #F80\n" = .ok (.rgb 255 136 0 none) ∧
    parse "#ff88" = .error (.invalidColor "#ff88" .hexLength) ∧ ¬ ∃ color, parse "#ff88" = .ok color := by
  have hshort : (Text.trim " #F80\n").toList = '#' :: ['F', '8', '0'] := by decide +kernel
  have hlong : (Text.trim "#ff88").toList = '#' :: ['f', 'f', '8', '8'] := by decide +kernel
  have htrim : Text.trim "#ff88" = "#ff88" := by decide +kernel
  obtain ⟨hok, -, -⟩ := parse_hash hshort
  obtain ⟨-, herror, hplain⟩ := parse_hash hlong
  rw [htrim] at herror
  refine ⟨hshort, (hok _).mpr ⟨255, 136, 0, .short ?_ ?_ ?_, rfl⟩, herror fun _ _ _ h => (nomatch h),
    fun hread => ?_⟩
  · exact ⟨15, by decide⟩
  · exact ⟨8, by decide⟩
  · exact ⟨0, by decide⟩
  · exact absurd ((hplain (by decide)).2.mp hread).1 (by decide)

/-- Three plus signs pass for digits. -/
theorem signs_pass_for_digits : parse "#+f+f+f" = .ok (.rgb 15 15 15 none) ∧ ∀ n, ¬ HexDigit '+' n := by
  have hhex : (Text.trim "#+f+f+f").toList = '#' :: ['+', 'f', '+', 'f', '+', 'f'] := by decide +kernel
  refine ⟨?_, fun n h => h.ne_plus rfl⟩
  rw [parse_of_hash hhex]
  rfl

end StyleEngine.Color
