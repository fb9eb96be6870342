/-!
# CSS identifiers

The CSSOM rule "serialize an identifier": every text is written so that it reads back as one
identifier token.
-/

namespace StyleEngine.Text

/-- Letters, digits, `-`, `_` and everything outside ASCII stand for themselves. -/
def isNameChar (c : Char) : Bool :=
  c.isAlphanum || c = '-' || c = '_' || 0x80 ≤ c.val

/-- A backslash, the code point in hexadecimal and a blank that ends it. -/
def escapeHex (c : Char) : List Char := '\\' :: (Nat.toDigits 16 c.toNat ++ [' '])

/-- NUL becomes the replacement character, other controls are written by code point, and the rest
of ASCII takes a backslash. -/
def nameChar (c : Char) : List Char :=
  if isNameChar c then [c]
  else if c = '\x00' then ['\ufffd']
  else if c.val < 0x20 || c = '\x7f' then escapeHex c
  else ['\\', c]

def nameChars (cs : List Char) : List Char := cs.flatMap nameChar

/-- A digit cannot start an identifier, so it is written by code point. -/
def identStart : List Char → List Char
  | [] => []
  | c :: rest => if c.isDigit then escapeHex c ++ nameChars rest else nameChars (c :: rest)

def identChars : List Char → List Char
  | '-' :: '-' :: rest => '-' :: '-' :: nameChars rest
  | ['-'] => ['\\', '-']
  | '-' :: rest => '-' :: identStart rest
  | cs => identStart cs

/-- The text of an identifier whose value is `name`. -/
def identifier (name : String) : String := String.ofList (identChars name.toList)

example : identifier "-1 a" = "-\\31 \\ a" := by decide
example : identifier "-" = "\\-" := by decide

end StyleEngine.Text
