import StyleEngine.Json.Token
import StyleEngine.MediaQuery

/-!
# Reading media queries

The JSON text of a media query is a map of its parts by name, where null is an absent part and
unknown members are skipped, or the list of all six parts in order. A known member does not repeat.
-/

namespace StyleEngine.MediaQuery

open Json (Token)

/-- The parts of a query, in the order of the list form. -/
inductive Part where
  | type
  | orientation
  | minWidth
  | maxWidth
  | minHeight
  | maxHeight
  deriving DecidableEq, Repr

def Part.all : List Part := [type, orientation, minWidth, maxWidth, minHeight, maxHeight]

def Part.name : Part → String
  | type => "type"
  | orientation => "orientation"
  | minWidth => "minWidth"
  | maxWidth => "maxWidth"
  | minHeight => "minHeight"
  | maxHeight => "maxHeight"

def Part.ofName? (name : String) : Option Part := Part.all.find? (·.name == name)

def mediaType? (name : String) : Option MediaType :=
  [MediaType.screen, .print, .all].find? (·.name == name)

def orientationOf? (name : String) : Option Orientation :=
  [Orientation.landscape, .portrait].find? (·.name == name)

/-- An absent choice or a name of one; a name may also stand as the key of a null. -/
def choice? {α : Type} (ofName? : String → Option α) : List Token → Option (Option α × List Token)
  | .null :: rest => some (none, rest)
  | .text (some name) :: rest => (ofName? name).map fun a => (some a, rest)
  | .openMap :: .text (some name) :: .colon :: .null :: .closeMap :: rest =>
    (ofName? name).map fun a => (some a, rest)
  | _ => none

/-- An absent length, pixels or a raw text. -/
def length? : List Token → Option (Option MediaLength × List Token)
  | .null :: rest => some (none, rest)
  | .number (some n) :: rest => some (some (.px n.toFloat), rest)
  | .text (some s) :: rest => some (some (.raw s), rest)
  | _ => none

/-- Reads one part into a query. -/
def readPart? (q : MediaQuery) (ts : List Token) : Part → Option (MediaQuery × List Token)
  | .type => (choice? mediaType? ts).map fun (v, rest) => ({ q with type? := v }, rest)
  | .orientation =>
    (choice? orientationOf? ts).map fun (v, rest) => ({ q with orientation? := v }, rest)
  | .minWidth => (length? ts).map fun (v, rest) => ({ q with minWidth? := v }, rest)
  | .maxWidth => (length? ts).map fun (v, rest) => ({ q with maxWidth? := v }, rest)
  | .minHeight => (length? ts).map fun (v, rest) => ({ q with minHeight? := v }, rest)
  | .maxHeight => (length? ts).map fun (v, rest) => ({ q with maxHeight? := v }, rest)

mutual

/-- The tokens after the value that starts them. Strings and numbers need no value. -/
def skip? : (fuel : Nat) → List Token → Option (List Token)
  | 0, _ => none
  | fuel + 1, ts =>
    match ts with
    | .null :: rest => some rest
    | .boolean _ :: rest => some rest
    | .text _ :: rest => some rest
    | .number _ :: rest => some rest
    | .openList :: .closeList :: rest => some rest
    | .openList :: rest => skipItems? fuel rest
    | .openMap :: .closeMap :: rest => some rest
    | .openMap :: rest => skipMembers? fuel rest
    | _ => none

def skipItems? : (fuel : Nat) → List Token → Option (List Token)
  | 0, _ => none
  | fuel + 1, ts =>
    match skip? fuel ts with
    | some (.comma :: rest) => skipItems? fuel rest
    | some (.closeList :: rest) => some rest
    | _ => none

def skipMembers? : (fuel : Nat) → List Token → Option (List Token)
  | 0, _ => none
  | fuel + 1, ts =>
    match ts with
    | .text _ :: .colon :: ts =>
      match skip? fuel ts with
      | some (.comma :: rest) => skipMembers? fuel rest
      | some (.closeMap :: rest) => some rest
      | _ => none
    | _ => none

end

/-- The members of a map up to its end: at least one. `seen` holds the parts that were read. -/
def readMembers? : (fuel : Nat) → List Part → MediaQuery → List Token → Option (MediaQuery × List Token)
  | 0, _, _, _ => none
  | fuel + 1, seen, q, .text (some key) :: .colon :: ts =>
    let part? := Part.ofName? key
    let read? :=
      match part? with
      | none => (skip? (2 * ts.length + 1) ts).map fun rest => (q, rest)
      | some part => if seen.contains part then none else readPart? q ts part
    match read? with
    | some (q, .comma :: rest) => readMembers? fuel (part?.toList ++ seen) q rest
    | some (q, .closeMap :: rest) => some (q, rest)
    | _ => none
  | _ + 1, _, _, _ => none

/-- The parts of a list up to its end. -/
def readList? (q : MediaQuery) (ts : List Token) : List Part → Option (MediaQuery × List Token)
  | [] => none
  | [part] =>
    match readPart? q ts part with
    | some (q, .closeList :: rest) => some (q, rest)
    | _ => none
  | part :: parts =>
    match readPart? q ts part with
    | some (q, .comma :: rest) => readList? q rest parts
    | _ => none

def readTokens? : List Token → Option (MediaQuery × List Token)
  | .openMap :: .closeMap :: rest => some ({}, rest)
  | .openMap :: rest => readMembers? (rest.length + 1) [] {} rest
  | .openList :: rest => readList? {} rest Part.all
  | _ => none

/-- The query that a JSON text spells. -/
def read? (s : String) : Option MediaQuery :=
  match readTokens? (Json.tokens s) with
  | some (q, []) => some q
  | _ => none

end StyleEngine.MediaQuery
