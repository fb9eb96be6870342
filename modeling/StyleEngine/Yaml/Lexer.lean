import StyleEngine.Keyed
import StyleEngine.Yaml.Scalar
import StyleEngine.Yaml.Token

/-!
# Reading YAML tokens

A key need not be announced: a colon makes a key of what stands before it. So every place where such
a key may start is marked, and when a colon is met the marked place becomes the key token, after a
token that opens a block map if the key is indented further than its surroundings.
-/

namespace StyleEngine.Yaml

/-- A token, or the place before a token where a key may start. -/
inductive Slot where
  | token (t : Token)
  | place (n : Nat)

/-- A place where a key may start. A required one has to turn out to be a key. -/
structure PendingKey where
  place : Nat
  required : Bool
  line : Nat
  index : Nat
  column : Nat

structure Lexer where
  cursor : Cursor
  /-- What was read, the last first. -/
  slots : List Slot := []
  /-- How many places were marked. -/
  places : Nat := 0
  /-- The places that turned out to be keys, and whether a block map opens there. -/
  found : List (Nat × Bool) := []
  /-- The indentation of the innermost block, -1 outside all. -/
  indent : Int := -1
  /-- The indentations around it. -/
  outer : List Int := []
  /-- The pending key of every open flow collection, the innermost first, and of the block around. -/
  keys : List (Option PendingKey) := [none]
  keyAllowed : Bool := true
  /-- The anchors so far and their numbers. -/
  anchors : List (String × Nat) := []
  done : Bool := false

namespace Lexer

def inFlow (s : Lexer) : Bool := 1 < s.keys.length

def column (s : Lexer) : Nat := s.cursor.column

def emit (s : Lexer) (t : Token) : Lexer := { s with slots := .token t :: s.slots }

def moveTo (s : Lexer) (c : Cursor) : Lexer := { s with cursor := c }

def allowKey (s : Lexer) (allowed : Bool) : Lexer := { s with keyAllowed := allowed }

/-- Forgets the innermost pending key, unless it is required. -/
def dropKey? (s : Lexer) : Option Lexer :=
  match s.keys with
  | some k :: rest => if k.required then none else some { s with keys := none :: rest }
  | _ => some s

/-- Marks a place where a key may start. -/
def markKey? (s : Lexer) : Option Lexer :=
  if !s.keyAllowed then some s
  else
    let key : PendingKey :=
      { place := s.places, required := !s.inFlow && s.indent = s.column
        line := s.cursor.line, index := s.cursor.index, column := s.column }
    s.dropKey?.map fun s =>
      { s with keys := some key :: s.keys.drop 1, places := s.places + 1
               slots := .place key.place :: s.slots }

/-- A key stays on its line and has at most 1024 octets. -/
def isStale (s : Lexer) (k : PendingKey) : Bool :=
  k.line < s.cursor.line || k.index + 1024 < s.cursor.index

/-- Forgets the pending keys that have grown stale, unless one is required. -/
def dropStale? (s : Lexer) : Option Lexer :=
  if s.keys.any fun k => k.any fun k => s.isStale k && k.required then none
  else some { s with keys := s.keys.map fun k => k.filter (!s.isStale ·) }

/-- Whether a block opens at a column. -/
def opensAt (s : Lexer) (column : Nat) : Bool := !s.inFlow && s.indent < column

/-- Indents to a column if a block opens there. -/
def indentTo (s : Lexer) (column : Nat) : Lexer :=
  if s.opensAt column then { s with indent := column, outer := s.indent :: s.outer } else s

/-- Opens a block here if it is indented further. -/
def openBlock (s : Lexer) (t : Token) : Lexer :=
  if s.opensAt s.column then (s.emit t).indentTo s.column else s

/-- The indentations left at a column, and how many blocks end there. -/
def closing (column indent : Int) : List Int → Int × List Int × Nat
  | [] => (indent, [], 0)
  | o :: outer =>
    if column < indent then
      let (indent, outer, n) := closing column o outer
      (indent, outer, n + 1)
    else (indent, o :: outer, 0)

/-- Ends the blocks that are indented further than a column. -/
def closeBlocks (s : Lexer) (column : Int) : Lexer :=
  if s.inFlow then s
  else
    let (indent, outer, n) := closing column s.indent s.outer
    { s with indent, outer, slots := List.replicate n (.token .blockEnd) ++ s.slots }

/-- Skips spaces, comments, breaks and a byte order mark at the start of each line. A tab is skipped
where no key may start. In block context a new line may start a key. -/
def skipGap : (fuel : Nat) → Lexer → Lexer
  | 0, s => s
  | fuel + 1, s =>
    let tabs := s.inFlow || !s.keyAllowed
    let c := s.cursor.skipMark.skipWhile fun c => c = ' ' || (tabs && c = '\t')
    let c := c.skipComment
    if startsWith isBreak c.rest then
      skipGap fuel { s with cursor := c.skipBreak, keyAllowed := s.keyAllowed || !s.inFlow }
    else s.moveTo c

/-- A token of so many characters. -/
def indicator (s : Lexer) (t : Token) (length : Nat) : Lexer :=
  (s.moveTo (s.cursor.skip length)).emit t

def streamEnd? (s : Lexer) : Option Lexer := do
  let s ← (s.closeBlocks (-1)).dropKey?
  return { s.emit .streamEnd with done := true }

def directive? (s : Lexer) : Option Lexer := do
  let s ← (s.closeBlocks (-1)).dropKey?
  let (t, c) ← readDirective? (s.cursor.skip 1)
  return (((s.allowKey false).moveTo c).emit t)

def marker? (s : Lexer) (t : Token) : Option Lexer := do
  let s ← (s.closeBlocks (-1)).dropKey?
  return (s.allowKey false).indicator t 3

def flowStart? (s : Lexer) (t : Token) : Option Lexer := do
  let s ← s.markKey?
  return ({ s with keys := none :: s.keys, keyAllowed := true }).indicator t 1

def flowEnd? (s : Lexer) (t : Token) : Option Lexer := do
  let s ← s.dropKey?
  let keys := if s.inFlow then s.keys.drop 1 else s.keys
  return ({ s with keys, keyAllowed := false }).indicator t 1

def flowEntry? (s : Lexer) : Option Lexer := do
  let s ← s.dropKey?
  return (s.allowKey true).indicator .flowEntry 1

def blockEntry? (s : Lexer) : Option Lexer := do
  if !s.inFlow && !s.keyAllowed then none
  else
    let s ← (s.openBlock .blockListStart).dropKey?
    return (s.allowKey true).indicator .blockEntry 1

def key? (s : Lexer) : Option Lexer := do
  if !s.inFlow && !s.keyAllowed then none
  else
    let s ← (s.openBlock .blockMapStart).dropKey?
    return (s.allowKey (!s.inFlow)).indicator .key 1

/-- A colon makes a key of the pending place, or stands behind an announced key. -/
def value? (s : Lexer) : Option Lexer :=
  match s.keys with
  | some k :: rest =>
    let opens := s.opensAt k.column
    let s := s.indentTo k.column
    some (({ s with keys := none :: rest, found := (k.place, opens) :: s.found }).allowKey false
      |>.indicator .value 1)
  | _ =>
    if s.inFlow then some ((s.allowKey false).indicator .value 1)
    else if !s.keyAllowed then none
    else some (((s.openBlock .blockMapStart).allowKey true).indicator .value 1)

/-- Numbers an anchor by the names that were there before it. A name that is there already takes a
new number, which it may then share with the next new name. -/
def anchor? (s : Lexer) : Option Lexer := do
  let s ← s.markKey?
  let (name, c) ← readAnchor? (s.cursor.skip 1)
  let n := s.anchors.length
  let s := { s with anchors := Keyed.put name n s.anchors }
  return ((s.allowKey false).moveTo c).emit (.anchor n)

/-- An alias has the number that its name has here. -/
def alias? (s : Lexer) : Option Lexer := do
  let s ← s.markKey?
  let (name, c) ← readAnchor? (s.cursor.skip 1)
  let n ← s.anchors.lookup name
  return ((s.allowKey false).moveTo c).emit (.alias n)

def tag? (s : Lexer) : Option Lexer := do
  let s ← s.markKey?
  let (t, c) ← readTag? s.inFlow s.cursor
  return ((s.allowKey false).moveTo c).emit t

def blockScalar? (s : Lexer) (literal : Bool) : Option Lexer := do
  let s ← s.dropKey?
  let (text, c) ← readBlock? literal s.indent (s.cursor.skip 1)
  return ((s.allowKey true).moveTo c).emit (.scalar false (String.ofList text))

def quoted? (s : Lexer) (quote : Char) : Option Lexer := do
  let s ← s.markKey?
  let (text, c) ← readQuoted? quote (s.cursor.rest.length + 1) (s.cursor.skip 1) []
  return ((s.allowKey false).moveTo c).emit (.scalar false (String.ofList text))

def plain? (s : Lexer) : Option Lexer := do
  let s ← s.markKey?
  let (text, broken, c) ←
    readPlain? s.inFlow (s.indent + 1).toNat (s.cursor.rest.length + 1) s.cursor [] {}
  return ((s.allowKey broken).moveTo c).emit (.scalar true (String.ofList text))

/-- Characters that start no plain scalar by themselves. -/
def isIndicator (c : Char) : Bool :=
  ['-', '?', ':', ',', '[', ']', '\x7b', '\x7d', '#', '&', '*', '!', '|', '>', '\'', '"', '%', '@',
    '\x60'].contains c

/-- Whether a plain scalar starts with `c` before `rest`. -/
def startsPlain (inFlow : Bool) (c : Char) (rest : List Char) : Bool :=
  !(isBlank c || isBreak c || isIndicator c) ||
    (c = '-' && !startsWith isBlank rest) ||
    (!inFlow && (c = '?' || c = ':') && !atGap rest)

/-- Reads the token at the cursor, which stands at no gap. -/
def next? (s : Lexer) : Option Lexer :=
  match s.cursor.rest with
  | [] => s.streamEnd?
  | c :: rest =>
    if s.column = 0 && c = '%' then s.directive?
    else if s.column = 0 && isMarker '-' (c :: rest) then s.marker? .documentStart
    else if s.column = 0 && isMarker '.' (c :: rest) then s.marker? .documentEnd
    else if c = '[' then s.flowStart? .flowListStart
    else if c = '\x7b' then s.flowStart? .flowMapStart
    else if c = ']' then s.flowEnd? .flowListEnd
    else if c = '\x7d' then s.flowEnd? .flowMapEnd
    else if c = ',' then s.flowEntry?
    else if c = '-' && atGap rest then s.blockEntry?
    else if c = '?' && (s.inFlow || atGap rest) then s.key?
    else if c = ':' && (s.inFlow || atGap rest) then s.value?
    else if c = '*' then s.alias?
    else if c = '&' then s.anchor?
    else if c = '!' then s.tag?
    else if c = '|' && !s.inFlow then s.blockScalar? true
    else if c = '>' && !s.inFlow then s.blockScalar? false
    else if c = '\'' || c = '"' then s.quoted? c
    else if startsPlain s.inFlow c rest then s.plain?
    else none

/-- Skips a gap, ends what ends there and reads a token. -/
def step? (s : Lexer) : Option Lexer := do
  let s ← (skipGap (s.cursor.rest.length + 1) s).dropStale?
  (s.closeBlocks s.column).next?

/-- Reads tokens to the end of the text. -/
def run? : (fuel : Nat) → Lexer → Option Lexer
  | 0, _ => none
  | fuel + 1, s =>
    match s.step? with
    | none => none
    | some s => if s.done then some s else run? fuel s

/-- The tokens of a slot. -/
def expand (found : List (Nat × Bool)) : Slot → List Token
  | .token t => [t]
  | .place n =>
    match found.lookup n with
    | none => []
    | some true => [.blockMapStart, .key]
    | some false => [.key]

end Lexer

/-- The tokens of a text, if it has no fault. -/
def tokens? (s : String) : Option (List Token) :=
  let cs := s.toList
  if cs.all isAllowed then
    (Lexer.run? (cs.length + 2) { cursor := { rest := cs } }).map fun l =>
      l.slots.reverse.flatMap (Lexer.expand l.found)
  else none

example : tokens? "a: [b]" = some [.blockMapStart, .key, .scalar true "a", .value, .flowListStart,
    .scalar true "b", .flowListEnd, .blockEnd, .streamEnd] := by decide +kernel

end StyleEngine.Yaml
