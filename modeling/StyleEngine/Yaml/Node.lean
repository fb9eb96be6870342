import StyleEngine.Yaml.Lexer

/-!
# YAML nodes

The node tree of a YAML text of one document. A node that is left out, such as the value of a lone
key, is an empty plain scalar.
-/

namespace StyleEngine.Yaml

/-- The anchor and the tag of a node. -/
structure Mark where
  anchor? : Option Nat := none
  tag? : Option Octets := none
  deriving DecidableEq

inductive Node where
  | scalar (mark : Mark) (plain : Bool) (text : String)
  | list (mark : Mark) (items : List Node)
  | map (mark : Mark) (members : List (Node × Node))
  | alias (anchor : Nat)

/-- What tag handles stand for. -/
abbrev TagHandles := List (Octets × Octets)

def standardTag (name : String) : Octets := octetsOf ("tag:yaml.org,2002:" ++ name).toList

/-- The handles that a document may redefine. -/
def defaultHandles : TagHandles :=
  [(octetsOf ['!'], octetsOf ['!']), (octetsOf ['!', '!'], standardTag "")]

/-- A tag in full. A handle has to be defined. -/
def fullTag? (handles : TagHandles) (handle suffix : Octets) : Option Octets :=
  if handle.isEmpty then some suffix else (handles.lookup handle).map (· ++ suffix)

/-- An anchor and a tag, in either order, where they are given. -/
def readMark? (handles : TagHandles) : List Token → Option (Mark × List Token)
  | .anchor n :: .tag handle suffix :: rest =>
    (fullTag? handles handle suffix).map fun tag => ({ anchor? := some n, tag? := some tag }, rest)
  | .tag handle suffix :: .anchor n :: rest =>
    (fullTag? handles handle suffix).map fun tag => ({ anchor? := some n, tag? := some tag }, rest)
  | .anchor n :: rest => some ({ anchor? := some n }, rest)
  | .tag handle suffix :: rest =>
    (fullTag? handles handle suffix).map fun tag => ({ tag? := some tag }, rest)
  | tokens => some ({}, tokens)

namespace Node

/-- A node that is left out. -/
def empty (mark : Mark := {}) : Node := .scalar mark true ""

/-- Whether the next token is one of these. -/
def nextIs (these : List Token) : List Token → Bool
  | [] => false
  | t :: _ => these.contains t

/-- A node, unless it is left out before one of these tokens. -/
def orEmpty? (these : List Token) (read? : List Token → Option (Node × List Token))
    (tokens : List Token) : Option (Node × List Token) :=
  if nextIs these tokens then some (empty, tokens) else read? tokens

/-- The value of a member: behind a colon a node, unless it is left out before one of these. -/
def value? (these : List Token) (read? : List Token → Option (Node × List Token)) :
    List Token → Option (Node × List Token)
  | .value :: rest => orEmpty? these read? rest
  | tokens => some (empty, tokens)

/-- Where a node stands. A list that is a member of a block map need not be indented. -/
inductive Place where
  | flow
  | block
  | member
  deriving DecidableEq, Repr

mutual

/-- The node at the start of the tokens, and the rest. A mark with nothing behind it is that of an
empty node. -/
def read? (handles : TagHandles) (place : Place) :
    (fuel : Nat) → List Token → Option (Node × List Token)
  | 0, _ => none
  | _ + 1, .alias n :: rest => some (.alias n, rest)
  | fuel + 1, tokens => do
    let (mark, tokens) ← readMark? handles tokens
    let absent := if mark = {} then none else some (empty mark, tokens)
    match tokens with
    | .scalar plain text :: rest => return (.scalar mark plain text, rest)
    | .flowListStart :: rest =>
      (flowItems? handles fuel rest).map fun (items, rest) => (.list mark items, rest)
    | .flowMapStart :: rest =>
      (flowMembers? handles fuel rest).map fun (members, rest) => (.map mark members, rest)
    | .blockListStart :: rest =>
      if place = .flow then absent
      else (blockItems? handles fuel rest).map fun (items, rest) => (.list mark items, rest)
    | .blockMapStart :: rest =>
      if place = .flow then absent
      else (blockMembers? handles fuel rest).map fun (members, rest) => (.map mark members, rest)
    | .blockEntry :: _ =>
      if place = .member then
        (looseItems? handles fuel tokens).map fun (items, rest) => (.list mark items, rest)
      else absent
    | _ => absent

/-- The items of an indented list up to its end. -/
def blockItems? (handles : TagHandles) : (fuel : Nat) → List Token → Option (List Node × List Token)
  | 0, _ => none
  | _ + 1, .blockEnd :: rest => some ([], rest)
  | fuel + 1, .blockEntry :: rest => do
    let (item, rest) ← orEmpty? [.blockEntry, .blockEnd] (read? handles .block fuel) rest
    let (items, rest) ← blockItems? handles fuel rest
    return (item :: items, rest)
  | _ + 1, _ => none

/-- The items of a list that is not indented. Anything else ends it. -/
def looseItems? (handles : TagHandles) : (fuel : Nat) → List Token → Option (List Node × List Token)
  | 0, _ => none
  | fuel + 1, .blockEntry :: rest => do
    let (item, rest) ← orEmpty? [.blockEntry, .key, .value, .blockEnd] (read? handles .block fuel) rest
    let (items, rest) ← looseItems? handles fuel rest
    return (item :: items, rest)
  | _ + 1, tokens => some ([], tokens)

/-- The members of a block map up to its end. -/
def blockMembers? (handles : TagHandles) :
    (fuel : Nat) → List Token → Option (List (Node × Node) × List Token)
  | 0, _ => none
  | _ + 1, .blockEnd :: rest => some ([], rest)
  | fuel + 1, .key :: rest => do
    let (key, rest) ← orEmpty? [.key, .value, .blockEnd] (read? handles .member fuel) rest
    let (value, rest) ← value? [.key, .value, .blockEnd] (read? handles .member fuel) rest
    let (members, rest) ← blockMembers? handles fuel rest
    return ((key, value) :: members, rest)
  | _ + 1, _ => none

/-- The items of a flow list up to its end. -/
def flowItems? (handles : TagHandles) : (fuel : Nat) → List Token → Option (List Node × List Token)
  | 0, _ => none
  | _ + 1, .flowListEnd :: rest => some ([], rest)
  | fuel + 1, tokens => do
    let (item, rest) ← flowItem? handles fuel tokens
    match rest with
    | .flowEntry :: rest =>
      let (items, rest) ← flowItems? handles fuel rest
      return (item :: items, rest)
    | .flowListEnd :: rest => return ([item], rest)
    | _ => none

/-- An item of a flow list: a node or a single member. Where the key of a member is left out, the
token in its place goes with it. -/
def flowItem? (handles : TagHandles) : (fuel : Nat) → List Token → Option (Node × List Token)
  | 0, _ => none
  | fuel + 1, .key :: rest => do
    let (key, rest) ←
      if nextIs [.value, .flowEntry, .flowListEnd] rest then some (empty, rest.drop 1)
      else read? handles .flow fuel rest
    let (value, rest) ← value? [.flowEntry, .flowListEnd] (read? handles .flow fuel) rest
    return (.map {} [(key, value)], rest)
  | fuel + 1, tokens => read? handles .flow fuel tokens

/-- The members of a flow map up to its end. A node without an announced key is a key of nothing. -/
def flowMembers? (handles : TagHandles) :
    (fuel : Nat) → List Token → Option (List (Node × Node) × List Token)
  | 0, _ => none
  | _ + 1, .flowMapEnd :: rest => some ([], rest)
  | fuel + 1, tokens => do
    let (member, rest) ← flowMember? handles fuel tokens
    match rest with
    | .flowEntry :: rest =>
      let (members, rest) ← flowMembers? handles fuel rest
      return (member :: members, rest)
    | .flowMapEnd :: rest => return ([member], rest)
    | _ => none

def flowMember? (handles : TagHandles) :
    (fuel : Nat) → List Token → Option ((Node × Node) × List Token)
  | 0, _ => none
  | fuel + 1, .key :: rest => do
    let (key, rest) ← orEmpty? [.value, .flowEntry, .flowMapEnd] (read? handles .flow fuel) rest
    let (value, rest) ← value? [.flowEntry, .flowMapEnd] (read? handles .flow fuel) rest
    return ((key, value), rest)
  | fuel + 1, tokens => (read? handles .flow fuel tokens).map fun (key, rest) => ((key, empty), rest)

end

def isDirective : Token → Bool
  | .versionDirective .. => true
  | .tagDirective .. => true
  | _ => false

/-- The tag handles of a document. There is at most one version, 1.1 or 1.2, and one directive for a
handle. -/
def readDirectives? (versioned : Bool) (handles : TagHandles) :
    List Token → Option (TagHandles × List Token)
  | .versionDirective major minor :: rest =>
    if versioned || major ≠ 1 || (minor ≠ 1 && minor ≠ 2) then none
    else readDirectives? true handles rest
  | .tagDirective handle expansion :: rest =>
    if (handles.lookup handle).isSome then none
    else readDirectives? versioned (handles ++ [(handle, expansion)]) rest
  | tokens => some (handles ++ defaultHandles, tokens)

/-- The node at the start of a document. At most four calls are nested for each token. -/
def readRoot? (handles : TagHandles) (tokens : List Token) : Option (Node × List Token) :=
  read? handles .block (4 * tokens.length + 4) tokens

/-- The node behind the marker that starts a document. -/
def readContent? (handles : TagHandles) (tokens : List Token) : Option (Node × List Token) :=
  if (tokens.take 1).any isDirective then some (empty, tokens)
  else orEmpty? [.documentStart, .documentEnd, .streamEnd] (readRoot? handles) tokens

/-- A document starts with its node, or with directives and a marker. Directives need the marker. -/
def document? (tokens : List Token) : Option (Node × List Token) :=
  if (tokens.take 1).any isDirective || nextIs [.documentStart] tokens then
    match readDirectives? false [] tokens with
    | some (handles, .documentStart :: rest) => readContent? handles rest
    | _ => none
  else readRoot? defaultHandles tokens

/-- The node of a stream of at most one document. -/
def ofTokens? (tokens : List Token) : Option Node :=
  if tokens = [.streamEnd] then some empty
  else
    match document? tokens with
    | some (node, rest) => if rest.dropWhile (· = .documentEnd) = [.streamEnd] then some node else none
    | none => none

mutual

/-- A node and all nodes inside it, in the order in which they start. -/
def nodes : Node → List Node
  | .list mark items => .list mark items :: nodesOfItems items
  | .map mark members => .map mark members :: nodesOfMembers members
  | node => [node]

def nodesOfItems : List Node → List Node
  | [] => []
  | item :: rest => item.nodes ++ nodesOfItems rest

def nodesOfMembers : List (Node × Node) → List Node
  | [] => []
  | (key, value) :: rest => key.nodes ++ value.nodes ++ nodesOfMembers rest

end

/-- The anchor of a node. -/
def anchor? : Node → Option Nat
  | .scalar mark _ _ => mark.anchor?
  | .list mark _ => mark.anchor?
  | .map mark _ => mark.anchor?
  | .alias _ => none

/-- Lists and maps count twice, for their start and their end. -/
def weight : Node → Nat
  | .list _ _ => 2
  | .map _ _ => 2
  | _ => 1

end Node

end StyleEngine.Yaml
