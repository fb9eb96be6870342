/-!
# The name hash

A text is hashed over its UTF-16 units, the last unit first, in 32-bit arithmetic, and the hash is
written in base 36. The same text has the same hash in every process.
-/

namespace StyleEngine.Text

/-- One unit inside the basic plane, a surrogate pair outside it. -/
def charUnits (c : Char) : List UInt32 :=
  if c.val < 0x10000 then [c.val]
  else [0xD800 + (c.val - 0x10000) / 0x400, 0xDC00 + (c.val - 0x10000) % 0x400]

def units (s : String) : List UInt32 := s.toList.flatMap charUnits

/-- Multiplies by 33 and mixes in the next unit, modulo `2 ^ 32`. -/
def mix (h unit : UInt32) : UInt32 := h * 33 ^^^ unit

def hashUnits (us : List UInt32) : UInt32 := us.reverse.foldl mix 5381

/-- The 32-bit hash of a text. -/
def hash32 (s : String) : UInt32 := hashUnits (units s)

/-- The digit of a value below 36: `0` to `9`, then `a` to `z`. -/
def digit36 (n : Nat) : Char := if n < 10 then Char.ofNat (48 + n) else Char.ofNat (87 + n)

/-- The base 36 digits of a number below `36 ^ places`, most significant first, without leading
zeros. -/
def digits36 : (places : Nat) → Nat → List Nat
  | 0, _ => []
  | k + 1, n => if n = 0 then [] else digits36 k (n / 36) ++ [n % 36]

/-- Seven places hold every 32-bit number. Zero is written `0`. -/
def base36 (n : UInt32) : String :=
  if n = 0 then "0" else String.ofList ((digits36 7 n.toNat).map digit36)

/-- The hash of a text in base 36. -/
def hash (s : String) : String := base36 (hash32 s)

/-- The number that a list of base 36 digits stands for. -/
def value36 (ds : List Nat) : Nat := ds.foldl (fun n d => 36 * n + d) 0

/-- The digits of a number read back as that number. -/
theorem value36_digits36 (k n : Nat) (h : n < Nat.pow 36 k) : value36 (digits36 k n) = n := by
  induction k generalizing n with
  | zero =>
    have h0 : n = 0 := Nat.lt_one_iff.mp h
    subst h0
    rfl
  | succ k ih =>
    rw [digits36]
    split
    · next h0 => subst h0; rfl
    · have hp : Nat.pow 36 (k + 1) = Nat.pow 36 k * 36 := rfl
      have hk : n / 36 < Nat.pow 36 k := by omega
      simp only [value36, List.foldl_append, List.foldl_cons, List.foldl_nil] at ih ⊢
      rw [ih (n / 36) hk]
      omega

theorem digits36_lt (k n : Nat) : ∀ d ∈ digits36 k n, d < 36 := by
  induction k generalizing n with
  | zero => simp [digits36]
  | succ k ih =>
    rw [digits36]
    split
    · simp
    · intro d hd
      rcases List.mem_append.mp hd with hd | hd
      · exact ih _ d hd
      · rw [List.mem_singleton.mp hd]
        omega

example : hash "" = "45h" := by decide

end StyleEngine.Text
