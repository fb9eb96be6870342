import StyleEngine.Json.Number

/-!
# JSON tokens

The tokens of a text, blanks left out. A text that is no sequence of tokens ends in `bad`. A string
with half a surrogate pair and a number out of range are tokens without a value: they may be skipped
but not read.
-/

namespace StyleEngine.Json

inductive Token where
  | openList
  | closeList
  | openMap
  | closeMap
  | comma
  | colon
  | null
  | boolean (b : Bool)
  | text (value? : Option String)
  | number (value? : Option Numeral)
  | bad

/-- A piece of a string: a character, or a UTF-16 unit written by its code. -/
inductive Piece where
  | char (c : Char)
  | unit (n : Nat)

/-- The unit with the four hexadecimal digits. -/
def unit? (a b c d : Char) : Option Nat := Number.readDigitsIn? 16 0 [a, b, c, d]

/-- The character that a one-letter escape stands for. -/
def escaped? : Char → Option Char
  | '"' => some '"'
  | '\\' => some '\\'
  | '/' => some '/'
  | 'b' => some '\x08'
  | 'f' => some '\x0c'
  | 'n' => some '\n'
  | 'r' => some '\r'
  | 't' => some '\t'
  | _ => none

/-- The pieces up to the closing quote, and the rest. Controls have to be escaped. -/
def spanPieces? : List Char → Option (List Piece × List Char)
  | [] => none
  | '"' :: rest => some ([], rest)
  | '\\' :: 'u' :: a :: b :: c :: d :: rest => do
    let n ← unit? a b c d
    let (pieces, rest) ← spanPieces? rest
    return (.unit n :: pieces, rest)
  | '\\' :: c :: rest => do
    let c ← escaped? c
    let (pieces, rest) ← spanPieces? rest
    return (.char c :: pieces, rest)
  | c :: rest =>
    if c.val < 0x20 then none
    else (spanPieces? rest).map fun (pieces, rest) => (.char c :: pieces, rest)

def isHighSurrogate (n : Nat) : Bool := 0xD800 ≤ n && n < 0xDC00
def isLowSurrogate (n : Nat) : Bool := 0xDC00 ≤ n && n < 0xE000

/-- The characters of the pieces. Surrogates come in pairs. -/
def assemble? : List Piece → Option (List Char)
  | [] => some []
  | .char c :: rest => (assemble? rest).map (c :: ·)
  | .unit high :: .unit low :: rest =>
    if isHighSurrogate high then
      if isLowSurrogate low then
        (assemble? rest).map (Char.ofNat (0x10000 + 0x400 * (high - 0xD800) + (low - 0xDC00)) :: ·)
      else none
    else if isLowSurrogate high then none
    else (assemble? (.unit low :: rest)).map (Char.ofNat high :: ·)
  | .unit n :: rest =>
    if isHighSurrogate n || isLowSurrogate n then none
    else (assemble? rest).map (Char.ofNat n :: ·)

def isBlank (c : Char) : Bool := c = ' ' || c = '\n' || c = '\t' || c = '\r'

/-- The token at the start of a text that does not start with a blank, and the rest. -/
def token? : List Char → Option (Token × List Char)
  | '[' :: rest => some (.openList, rest)
  | ']' :: rest => some (.closeList, rest)
  | '\x7b' :: rest => some (.openMap, rest)
  | '\x7d' :: rest => some (.closeMap, rest)
  | ',' :: rest => some (.comma, rest)
  | ':' :: rest => some (.colon, rest)
  | 'n' :: 'u' :: 'l' :: 'l' :: rest => some (.null, rest)
  | 't' :: 'r' :: 'u' :: 'e' :: rest => some (.boolean true, rest)
  | 'f' :: 'a' :: 'l' :: 's' :: 'e' :: rest => some (.boolean false, rest)
  | '"' :: rest =>
    (spanPieces? rest).map fun (pieces, rest) => (.text ((assemble? pieces).map String.ofList), rest)
  | cs => (spanNumber? cs).map fun (t, rest) => (.number t.value?, rest)

/-- The tokens of a text no longer than `fuel`. -/
def tokensUpTo : (fuel : Nat) → List Char → List Token
  | 0, _ => []
  | fuel + 1, cs =>
    match cs.dropWhile isBlank with
    | [] => []
    | cs =>
      match token? cs with
      | none => [.bad]
      | some (t, rest) => t :: tokensUpTo fuel rest

/-- Every token has a character of its own. -/
def tokens (s : String) : List Token := tokensUpTo (s.toList.length + 1) s.toList

end StyleEngine.Json
