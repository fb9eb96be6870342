/-!
# Places in a YAML text

A cursor is what is left of a text, with the line and the column where it starts and the number of
octets before it. A column counts characters.
-/

namespace StyleEngine.Yaml

/-- The characters that a text may hold: no controls but tab and line breaks. -/
def isAllowed (c : Char) : Bool :=
  c = '\t' || c = '\n' || c = '\r' || c = '\u0085' || (0x20 ≤ c.val && c.val ≤ 0x7e) ||
    (0xa0 ≤ c.val && c.val ≤ 0xfffd) || 0x10000 ≤ c.val

/-- Carriage return, line feed, next line, line separator, paragraph separator. -/
def isBreak (c : Char) : Bool :=
  c = '\r' || c = '\n' || c = '\u0085' || c = '\u2028' || c = '\u2029'

def isBlank (c : Char) : Bool := c = ' ' || c = '\t'

/-- Digits, letters, `_` and `-`. -/
def isWord (c : Char) : Bool := c.isAlphanum || c = '_' || c = '-'

/-- Whether a text starts with one of the characters. -/
def startsWith (p : Char → Bool) : List Char → Bool
  | [] => false
  | c :: _ => p c

/-- Whether a text is at the end of a line. -/
def atLineEnd : List Char → Bool
  | [] => true
  | c :: _ => isBreak c

/-- Whether a text is at a blank or at the end of a line. -/
def atGap : List Char → Bool
  | [] => true
  | c :: _ => isBlank c || isBreak c

/-- Three dashes or dots with a gap behind them. -/
def isMarker (c : Char) : List Char → Bool
  | a :: b :: d :: rest => a = c && b = c && d = c && atGap rest
  | _ => false

/-- The number of octets of some characters. -/
def octetLength (cs : List Char) : Nat := cs.foldl (fun n c => n + c.utf8Size) 0

structure Cursor where
  rest : List Char
  index : Nat := 0
  line : Nat := 0
  column : Nat := 0

namespace Cursor

/-- Past so many characters of the line. -/
def skip (c : Cursor) (n : Nat) : Cursor :=
  { c with rest := c.rest.drop n, index := c.index + octetLength (c.rest.take n)
           column := c.column + n }

/-- Past the characters of the line that satisfy `p`, which come along. -/
def span (c : Cursor) (p : Char → Bool) : List Char × Cursor :=
  (c.rest.takeWhile p, c.skip (c.rest.takeWhile p).length)

def skipWhile (c : Cursor) (p : Char → Bool) : Cursor := (c.span p).2

/-- Past so many characters that break the line. -/
def nextLine (c : Cursor) (n : Nat) : Cursor :=
  { c.skip n with line := c.line + 1, column := 0 }

/-- Past a line break and what it stands for: the two separators for themselves, any other break for
a line feed. Elsewhere nothing is read. -/
def readBreak (c : Cursor) : List Char × Cursor :=
  match c.rest with
  | '\r' :: '\n' :: _ => (['\n'], c.nextLine 2)
  | b :: _ =>
    if b = '\u2028' || b = '\u2029' then ([b], c.nextLine 1)
    else if isBreak b then (['\n'], c.nextLine 1)
    else ([], c)
  | [] => ([], c)

def skipBreak (c : Cursor) : Cursor := c.readBreak.2

/-- Past a byte order mark at the start of a line. -/
def skipMark (c : Cursor) : Cursor :=
  if c.column = 0 && startsWith (· = '\ufeff') c.rest then c.skip 1 else c

/-- Past a comment, if there is one. -/
def skipComment (c : Cursor) : Cursor :=
  if startsWith (· = '#') c.rest then c.skipWhile (!isBreak ·) else c

/-- Whether a line starts here with a marker of a document. -/
def atMarker (c : Cursor) : Bool :=
  c.column = 0 && (isMarker '-' c.rest || isMarker '.' c.rest)

end Cursor

end StyleEngine.Yaml
