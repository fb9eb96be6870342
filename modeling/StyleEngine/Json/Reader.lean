import StyleEngine.Json.Token

/-!
# Reading JSON

The value of a token sequence. Lists and maps nest at most 127 deep. A repeated key keeps its first
place and takes its last value.
-/

namespace StyleEngine.Json

/-- The deepest nesting that is read. -/
def maxDepth : Nat := 127

mutual

/-- The value at the start of the tokens, and the rest. -/
def value? : (fuel depth : Nat) → List Token → Option (Data × List Token)
  | 0, _, _ => none
  | fuel + 1, depth, ts =>
    match ts with
    | .null :: rest => some (.null, rest)
    | .boolean b :: rest => some (.boolean b, rest)
    | .text (some s) :: rest => some (.text s, rest)
    | .number (some n) :: rest => some (.number n, rest)
    | .openList :: .closeList :: rest => if depth = 0 then none else some (.list [], rest)
    | .openList :: rest =>
      if depth = 0 then none
      else (items? fuel (depth - 1) rest).map fun (items, rest) => (.list items, rest)
    | .openMap :: .closeMap :: rest => if depth = 0 then none else some (.map [], rest)
    | .openMap :: rest =>
      if depth = 0 then none
      else (members? fuel (depth - 1) rest).map fun (members, rest) =>
        (.map (Keyed.putAll [] members), rest)
    | _ => none

/-- The items of a list up to its end: at least one. -/
def items? : (fuel depth : Nat) → List Token → Option (List Data × List Token)
  | 0, _, _ => none
  | fuel + 1, depth, ts =>
    match value? fuel depth ts with
    | some (v, .comma :: rest) => (items? fuel depth rest).map fun (vs, rest) => (v :: vs, rest)
    | some (v, .closeList :: rest) => some ([v], rest)
    | _ => none

/-- The members of a map up to its end: at least one. -/
def members? : (fuel depth : Nat) → List Token → Option (List (String × Data) × List Token)
  | 0, _, _ => none
  | fuel + 1, depth, ts =>
    match ts with
    | .text (some key) :: .colon :: ts =>
      match value? fuel depth ts with
      | some (v, .comma :: rest) =>
        (members? fuel depth rest).map fun (ms, rest) => ((key, v) :: ms, rest)
      | some (v, .closeMap :: rest) => some ([(key, v)], rest)
      | _ => none
    | _ => none

end

/-- The value that starts a text, and whether the text ends with it. -/
def readFirst? (s : String) : Option (Data × Bool) :=
  let ts := tokens s
  (value? (2 * ts.length + 1) maxDepth ts).map fun (v, rest) => (v, rest.isEmpty)

/-- The value that a whole text spells. -/
def read? (s : String) : Option Data :=
  match readFirst? s with
  | some (v, true) => some v
  | _ => none

end StyleEngine.Json
