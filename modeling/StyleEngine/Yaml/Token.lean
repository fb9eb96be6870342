import StyleEngine.Number.Decimal
import StyleEngine.Yaml.Cursor

/-!
# YAML tokens

The tokens of a YAML text, and how anchors, tags and directives are spelled. Anchors are numbered. A
tag is a sequence of octets, since its text may escape any of them.
-/

namespace StyleEngine.Yaml

/-- The octets of a tag or of a part of one. -/
abbrev Octets := List UInt8

def octetsOf (cs : List Char) : Octets := (String.ofList cs).toUTF8.toList

inductive Token where
  | streamEnd
  | versionDirective (major minor : Nat)
  | tagDirective (handle : Octets) (expansion : Octets)
  | documentStart
  | documentEnd
  | blockListStart
  | blockMapStart
  | blockEnd
  | flowListStart
  | flowListEnd
  | flowMapStart
  | flowMapEnd
  | flowEntry
  | blockEntry
  | key
  | value
  | alias (anchor : Nat)
  | anchor (n : Nat)
  | tag (handle suffix : Octets)
  | scalar (plain : Bool) (text : String)
  deriving DecidableEq

/-- Characters behind an anchor besides a gap. -/
def endsAnchor (c : Char) : Bool := ['?', ':', ',', ']', '\x7d', '%', '@', '\x60'].contains c

/-- The name of an anchor or an alias behind its indicator. -/
def readAnchor? (c : Cursor) : Option (String × Cursor) :=
  let (name, c) := c.span isWord
  if !name.isEmpty && (atGap c.rest || startsWith endsAnchor c.rest) then
    some (String.ofList name, c)
  else none

/-- The characters of a tag. Commas and square brackets are for verbatim tags and for directives. -/
def isTagChar (verbatim : Bool) (c : Char) : Bool :=
  isWord c ||
    [';', '/', '?', ':', '@', '&', '=', '+', '$', '.', '%', '!', '~', '*', '\'', '(', ')'].contains c ||
    (verbatim && [',', '[', ']'].contains c)

/-- The octet of an escape, which is a percent sign and two digits. -/
def escapedOctet? : List Char → Option Nat
  | '%' :: a :: b :: _ => Number.readDigitsIn? 16 0 [a, b]
  | _ => none

/-- How many octets a character has whose first octet is `n`. -/
def octetCount? (n : Nat) : Option Nat :=
  if n < 0x80 then some 1
  else if n / 0x20 = 6 then some 2
  else if n / 0x10 = 14 then some 3
  else if n / 8 = 30 then some 4
  else none

/-- So many escapes of octets that continue a character. -/
def readContinuation? : Nat → Cursor → Option (Octets × Cursor)
  | 0, c => some ([], c)
  | n + 1, c =>
    match escapedOctet? c.rest with
    | none => none
    | some octet =>
      if octet / 0x40 = 2 then
        (readContinuation? n (c.skip 3)).map fun (octets, c) => (octet.toUInt8 :: octets, c)
      else none

/-- The octets of one escaped character. -/
def readEscaped? (c : Cursor) : Option (Octets × Cursor) := do
  let first ← escapedOctet? c.rest
  let count ← octetCount? first
  let (octets, c) ← readContinuation? (count - 1) (c.skip 3)
  return (first.toUInt8 :: octets, c)

/-- The characters of a tag as octets. -/
def readTagChars? (verbatim : Bool) : (fuel : Nat) → Cursor → Option (Octets × Cursor)
  | 0, c => some ([], c)
  | fuel + 1, c =>
    match c.rest with
    | [] => some ([], c)
    | x :: _ =>
      if !isTagChar verbatim x then some ([], c)
      else if x = '%' then do
        let (octets, c) ← readEscaped? c
        let (more, c) ← readTagChars? verbatim fuel c
        return (octets ++ more, c)
      else (readTagChars? verbatim fuel (c.skip 1)).map fun (more, c) => (octetsOf [x] ++ more, c)

/-- Tag characters behind `head`. Without a head there is at least one. A zero octet ends the text,
though not its spelling. -/
def readTagText? (verbatim : Bool) (head : Octets) (c : Cursor) : Option (Octets × Cursor) :=
  match readTagChars? verbatim (c.rest.length + 1) c with
  | none => none
  | some (octets, c) =>
    if head.isEmpty && octets.isEmpty then none
    else some ((head.drop 1 ++ octets).takeWhile (· ≠ 0), c)

/-- An exclamation mark, word characters and perhaps another exclamation mark. -/
def readHandle? (c : Cursor) : Option (List Char × Cursor) :=
  if startsWith (· = '!') c.rest then
    let (word, c) := (c.skip 1).span isWord
    if startsWith (· = '!') c.rest then some ('!' :: word ++ ['!'], c.skip 1)
    else some ('!' :: word, c)
  else none

def isFullHandle (handle : List Char) : Bool := 1 < handle.length && handle.getLast? = some '!'

/-- Handle and suffix of a tag. A verbatim tag has the empty handle, and so has the tag `!`. -/
def readTagParts? (c : Cursor) : Option (Octets × Octets × Cursor) :=
  if startsWith (· = '<') (c.rest.drop 1) then
    match readTagText? true [] (c.skip 2) with
    | some (suffix, c) => if startsWith (· = '>') c.rest then some ([], suffix, c.skip 1) else none
    | none => none
  else do
    let (handle, c) ← readHandle? c
    if isFullHandle handle then
      let (suffix, c) ← readTagText? false [] c
      return (octetsOf handle, suffix, c)
    else
      let (suffix, c) ← readTagText? false (octetsOf handle) c
      return if suffix.isEmpty then ([], octetsOf ['!'], c) else (octetsOf ['!'], suffix, c)

/-- A tag ends before a gap, in flow context also before a comma. -/
def readTag? (inFlow : Bool) (c : Cursor) : Option (Token × Cursor) :=
  match readTagParts? c with
  | none => none
  | some (handle, suffix, c) =>
    if atGap c.rest || (inFlow && startsWith (· = ',') c.rest) then some (.tag handle suffix, c)
    else none

/-- A number of at most nine digits. -/
def readVersionNumber? (c : Cursor) : Option (Nat × Cursor) :=
  let (digits, c) := c.span Char.isDigit
  if digits.isEmpty || 9 < digits.length then none
  else (Number.readDigitsIn? 10 0 digits).map (·, c)

def readVersion? (c : Cursor) : Option (Token × Cursor) := do
  let (major, c) ← readVersionNumber? (c.skipWhile isBlank)
  if startsWith (· = '.') c.rest then
    let (minor, c) ← readVersionNumber? (c.skip 1)
    return (.versionDirective major minor, c)
  else none

def readTagDirective? (c : Cursor) : Option (Token × Cursor) := do
  let (handle, c) ← readHandle? (c.skipWhile isBlank)
  if (isFullHandle handle || handle = ['!']) && startsWith isBlank c.rest then
    let (expansion, c) ← readTagText? true [] (c.skipWhile isBlank)
    if atGap c.rest then return (.tagDirective (octetsOf handle) expansion, c) else none
  else none

/-- A directive behind its percent sign, with its line. -/
def readDirective? (c : Cursor) : Option (Token × Cursor) := do
  let (name, c) := c.span isWord
  if !atGap c.rest then none
  else
    let (token, c) ← match String.ofList name with
      | "YAML" => readVersion? c
      | "TAG" => readTagDirective? c
      | _ => none
    let c := (c.skipWhile isBlank).skipComment
    if atLineEnd c.rest then return (token, c.skipBreak) else none

end StyleEngine.Yaml
