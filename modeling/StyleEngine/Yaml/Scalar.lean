import StyleEngine.Number.Decimal
import StyleEngine.Yaml.Cursor

/-!
# YAML scalars

Plain, quoted and block scalars and how their lines are folded. A single line feed between two lines
becomes a space, further ones are kept.
-/

namespace StyleEngine.Yaml

/-- Blanks and breaks between the words of a flow scalar. -/
structure Gap where
  /-- Whether a line has ended. -/
  broken : Bool := false
  /-- The blanks before the first break. -/
  spaces : List Char := []
  /-- The first break. -/
  lead : List Char := []
  /-- The other breaks. -/
  breaks : List Char := []

/-- What a gap stands for inside a scalar. -/
def Gap.text (g : Gap) : List Char :=
  if !g.broken then g.spaces
  else if g.lead = ['\n'] then (if g.breaks.isEmpty then [' '] else g.breaks)
  else g.lead ++ g.breaks

/-- Reads on in a gap. Before column `margin` of a later line a tab is refused. -/
def readGap? (margin : Nat) : (fuel : Nat) → Cursor → Gap → Option (Gap × Cursor)
  | 0, c, g => some (g, c)
  | fuel + 1, c, g =>
    match c.rest with
    | [] => some (g, c)
    | x :: _ =>
      if isBlank x then
        if !g.broken then readGap? margin fuel (c.skip 1) { g with spaces := g.spaces ++ [x] }
        else if c.column < margin && x = '\t' then none
        else readGap? margin fuel (c.skip 1) g
      else if isBreak x then
        let (text, c) := c.readBreak
        if g.broken then readGap? margin fuel c { g with breaks := g.breaks ++ text }
        else readGap? margin fuel c { broken := true, lead := text }
      else some (g, c)

/-- The end of a word of a plain scalar: a gap, a colon before a gap, and in flow context a comma or
a bracket. In flow context a colon right before an indicator is refused. -/
def plainWord? (inFlow : Bool) : List Char → Option (List Char)
  | [] => some []
  | c :: rest =>
    if isBlank c || isBreak c then some []
    else if inFlow && c = ':' && startsWith [',', '?', '[', ']', '\x7b', '\x7d'].contains rest then none
    else if c = ':' && atGap rest then some []
    else if inFlow && [',', '[', ']', '\x7b', '\x7d'].contains c then some []
    else (plainWord? inFlow rest).map (c :: ·)

/-- Reads words of a plain scalar. The flag says whether it ended after a line break. -/
def readPlain? (inFlow : Bool) (margin : Nat) :
    (fuel : Nat) → Cursor → List Char → Gap → Option (List Char × Bool × Cursor)
  | 0, c, text, g => some (text, g.broken, c)
  | fuel + 1, c, text, g =>
    if c.atMarker || startsWith (· = '#') c.rest then some (text, g.broken, c)
    else
      match plainWord? inFlow c.rest with
      | none => none
      | some word =>
        let c := c.skip word.length
        let (text, g) := if word.isEmpty then (text, g) else (text ++ g.text ++ word, {})
        if c.rest.isEmpty || !atGap c.rest then some (text, g.broken, c)
        else
          match readGap? margin (c.rest.length + 1) c g with
          | none => none
          | some (g, c) =>
            if !inFlow && c.column < margin then some (text, g.broken, c)
            else readPlain? inFlow margin fuel c text g

/-- The characters that one-letter escapes stand for. -/
def simpleEscape? : Char → Option Char
  | '0' => some '\x00'
  | 'a' => some '\x07'
  | 'b' => some '\x08'
  | 't' => some '\t'
  | '\t' => some '\t'
  | 'n' => some '\n'
  | 'v' => some '\x0b'
  | 'f' => some '\x0c'
  | 'r' => some '\r'
  | 'e' => some '\x1b'
  | ' ' => some ' '
  | '"' => some '"'
  | '/' => some '/'
  | '\\' => some '\\'
  | 'N' => some '\u0085'
  | '_' => some '\u00a0'
  | 'L' => some '\u2028'
  | 'P' => some '\u2029'
  | _ => none

/-- How many digits a code escape has. -/
def codeLength? : Char → Option Nat
  | 'x' => some 2
  | 'u' => some 4
  | 'U' => some 8
  | _ => none

/-- The character of a code, which is no surrogate. -/
def charOfCode? (n : Nat) : Option Char :=
  if n.isValidChar then some (Char.ofNat n) else none

/-- The character after a backslash, and the length of the escape behind the backslash. -/
def escape? : List Char → Option (Char × Nat)
  | [] => none
  | c :: rest =>
    match codeLength? c with
    | none => (simpleEscape? c).map (·, 1)
    | some n =>
      let digits := rest.take n
      if digits.length < n then none
      else ((Number.readDigitsIn? 16 0 digits).bind charOfCode?).map (·, n + 1)

/-- Reads a word of a quoted scalar up to a gap or the closing quote. The flag says whether it ended
with an escaped break, which is read too. -/
def quotedWord? (quote : Char) : (fuel : Nat) → Cursor → Option (List Char × Bool × Cursor)
  | 0, c => some ([], false, c)
  | fuel + 1, c =>
    match c.rest with
    | [] => some ([], false, c)
    | x :: rest =>
      if isBlank x || isBreak x then some ([], false, c)
      else if x = quote then
        if quote = '\'' && startsWith (· = '\'') rest then
          (quotedWord? quote fuel (c.skip 2)).map fun (word, r) => ('\'' :: word, r)
        else some ([], false, c)
      else if quote = '"' && x = '\\' then
        if startsWith isBreak rest then some ([], true, (c.skip 1).skipBreak)
        else
          match escape? rest with
          | none => none
          | some (y, n) =>
            (quotedWord? quote fuel (c.skip (n + 1))).map fun (word, r) => (y :: word, r)
      else (quotedWord? quote fuel (c.skip 1)).map fun (word, r) => (x :: word, r)

/-- Reads a quoted scalar up to its closing quote. A marker of a document may not start a line of
it. -/
def readQuoted? (quote : Char) : (fuel : Nat) → Cursor → List Char → Option (List Char × Cursor)
  | 0, _, _ => none
  | fuel + 1, c, text =>
    if c.atMarker || c.rest.isEmpty then none
    else
      match quotedWord? quote (c.rest.length + 1) c with
      | none => none
      | some (word, escapedBreak, c) =>
        if startsWith (· = quote) c.rest then some (text ++ word, c.skip 1)
        else
          match readGap? 0 (c.rest.length + 1) c { broken := escapedBreak } with
          | none => none
          | some (g, c) => readQuoted? quote fuel c (text ++ word ++ g.text)

/-- What becomes of the breaks at the end of a block scalar. -/
inductive Chomping where
  | strip
  | clip
  | keep
  deriving DecidableEq, Repr

/-- The header of a block scalar. -/
structure BlockHeader where
  chomping : Chomping := .clip
  /-- The indentation beyond the parent, if it is given. -/
  increment? : Option Nat := none

def chompingOf? : Char → Option Chomping
  | '+' => some .keep
  | '-' => some .strip
  | _ => none

/-- Chomping and indentation, in either order. The indentation is not zero. -/
def readBlockHeader? (c : Cursor) : Option (BlockHeader × Cursor) :=
  match c.rest with
  | [] => some ({}, c)
  | x :: rest =>
    match chompingOf? x with
    | some chomping =>
      match rest with
      | d :: _ =>
        if d = '0' then none
        else if d.isDigit then some ({ chomping, increment? := some (d.toNat - 48) }, c.skip 2)
        else some ({ chomping }, c.skip 1)
      | [] => some ({ chomping }, c.skip 1)
    | none =>
      if x = '0' then none
      else if x.isDigit then
        match rest.head?.bind chompingOf? with
        | some chomping => some ({ chomping, increment? := some (x.toNat - 48) }, c.skip 2)
        | none => some ({ increment? := some (x.toNat - 48) }, c.skip 1)
      else some ({}, c)

/-- Reads indentation and empty lines. Indentation zero is not known yet: any number of spaces is
taken. A tab in the indentation is refused. The third part is the largest column seen. -/
def readBlockBreaks? (indent : Nat) :
    (fuel : Nat) → Cursor → List Char → (widest : Nat) → Option (List Char × Nat × Cursor)
  | 0, c, breaks, widest => some (breaks, widest, c)
  | fuel + 1, c, breaks, widest =>
    let spaces := (c.rest.takeWhile (· = ' ')).length
    let c := c.skip (if indent = 0 then spaces else min spaces (indent - c.column))
    let widest := max widest c.column
    if (indent = 0 || c.column < indent) && startsWith (· = '\t') c.rest then none
    else if startsWith isBreak c.rest then
      let (text, c) := c.readBreak
      readBlockBreaks? indent fuel c (breaks ++ text) widest
    else some (breaks, widest, c)

/-- The text of a block scalar so far. -/
structure BlockText where
  text : List Char := []
  /-- The break of the last line. -/
  lead : List Char := []
  /-- The breaks of the empty lines after it. -/
  breaks : List Char := []
  /-- Whether the last line started with a blank. -/
  blank : Bool := false

/-- The text with the breaks before the next line. In a folded scalar a line feed between two lines
that do not start with a blank becomes a space, or nothing before empty lines. -/
def BlockText.fold (b : BlockText) (literal nextBlank : Bool) : List Char :=
  let folds := !literal && b.lead = ['\n'] && !b.blank && !nextBlank
  let join := if !folds then b.lead else if b.breaks.isEmpty then [' '] else []
  b.text ++ join ++ b.breaks

/-- Reads the lines of a block scalar. -/
def readBlockLines? (literal : Bool) (indent : Nat) :
    (fuel : Nat) → Cursor → BlockText → Option (BlockText × Cursor)
  | 0, c, b => some (b, c)
  | fuel + 1, c, b =>
    if c.column ≠ indent || c.rest.isEmpty then some (b, c)
    else
      let blank := startsWith isBlank c.rest
      let (line, c) := c.span (!isBreak ·)
      let text := b.fold literal blank ++ line
      let (lead, c) := c.readBreak
      match readBlockBreaks? indent (c.rest.length + 1) c [] 0 with
      | none => none
      | some (breaks, _, c) => readBlockLines? literal indent fuel c { text, lead, breaks, blank }

/-- The text after chomping. -/
def BlockText.chomp (b : BlockText) : Chomping → List Char
  | .strip => b.text
  | .clip => b.text ++ b.lead
  | .keep => b.text ++ b.lead ++ b.breaks

/-- Reads a block scalar behind its indicator. The parent is indented by `parent`, which is -1
outside everything. -/
def readBlock? (literal : Bool) (parent : Int) (c : Cursor) : Option (List Char × Cursor) := do
  let (header, c) ← readBlockHeader? c
  let c := (c.skipWhile isBlank).skipComment
  if !atLineEnd c.rest then none
  else
    let c := c.skipBreak
    let indent := header.increment?.elim 0 (parent.toNat + ·)
    let (breaks, widest, c) ← readBlockBreaks? indent (c.rest.length + 1) c [] 0
    let indent := if indent = 0 then max widest (max (parent + 1).toNat 1) else indent
    let (b, c) ← readBlockLines? literal indent (c.rest.length + 1) c { breaks }
    return (b.chomp header.chomping, c)

end StyleEngine.Yaml
