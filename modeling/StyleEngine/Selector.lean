import StyleEngine.Text.Blank
import StyleEngine.Text.Identifier

/-!
# Selectors

A selector list is cut at its top-level commas; commas inside quotes or brackets and escaped ones do
not cut. A nested selector is composed with its parent by putting the parent in place of each `&`,
or in front when there is none, for every pair of parts.
-/

namespace StyleEngine.Selector

/-- Where a scan of a selector list stands. -/
structure Scan where
  depth : Nat := 0
  quote : Option Char := none
  escaped : Bool := false
  deriving DecidableEq, Repr

/-- The scan after one more character. A backslash escapes also inside quotes; a closing bracket at
depth 0 is ignored. -/
def Scan.step (s : Scan) (c : Char) : Scan :=
  if s.escaped then { s with escaped := false }
  else if c = '\\' then { s with escaped := true }
  else
    match s.quote with
    | some q => if c = q then { s with quote := none } else s
    | none =>
      if c = '"' || c = '\'' then { s with quote := some c }
      else if c = '(' || c = '[' then { s with depth := s.depth + 1 }
      else if c = ')' || c = ']' then { s with depth := s.depth - 1 }
      else s

/-- Whether `c` is a comma that cuts the list here. -/
def Scan.cutsAt (s : Scan) (c : Char) : Bool :=
  !s.escaped && s.quote.isNone && s.depth = 0 && c = ','

/-- The scan at the end of a text. -/
def Scan.run (s : Scan) (cs : List Char) : Scan := cs.foldl Scan.step s

/-- The texts between the commas that cut. There is always at least one. -/
def pieces (s : Scan) : List Char → List (List Char)
  | [] => [[]]
  | c :: rest =>
    if s.cutsAt c then [] :: pieces (s.step c) rest
    else (pieces (s.step c) rest).modifyHead (c :: ·)

/-- The trimmed parts of a selector list. -/
def split (selector : String) : List String :=
  (pieces {} selector.toList).map fun p => String.ofList (Text.trimChars p)

/-- The text with `parent` in place of every `&`. -/
def substitute (parent child : String) : String :=
  String.ofList (child.toList.flatMap fun c => if c = '&' then parent.toList else [c])

/-- Whether a text mentions its parent. -/
def mentionsParent (selector : String) : Bool := selector.toList.contains '&'

/-- One part below one parent. -/
def attach (parent child : String) : String :=
  if mentionsParent child then substitute parent child else parent ++ " " ++ child

def joinList (selectors : List String) : String := ",".intercalate selectors

/-- Every part of `selector` below every part of `parent`, parent by parent. -/
def compose (parent selector : String) : String :=
  joinList ((split parent).flatMap fun p => (split selector).map (attach p))

/-- Keys that start with `@` are at-rules. -/
def isAtRule (key : String) : Bool := key.toList.head? == some '@'

/-- Keys that nest wherever they stand. -/
def isNested (key : String) : Bool := mentionsParent key || isAtRule key

/-- The selector of the class `name`. -/
def ofClass (name : String) : String := "." ++ Text.identifier name

theorem pieces_ne_nil (s : Scan) (cs : List Char) : pieces s cs ≠ [] := by
  induction cs generalizing s with
  | nil => simp [pieces]
  | cons c rest ih =>
    rw [pieces]
    split
    · simp
    · simpa using ih (s.step c)

theorem split_ne_nil (selector : String) : split selector ≠ [] := by
  simpa [split] using pieces_ne_nil {} selector.toList

example : split "a, b:is(c, d) , [e=\",\"]" = ["a", "b:is(c, d)", "[e=\",\"]"] := by decide
example : compose ".a, .b" "&:hover, i" = ".a:hover,.a i,.b:hover,.b i" := by decide

end StyleEngine.Selector
