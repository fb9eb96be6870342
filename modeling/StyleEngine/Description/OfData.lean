import StyleEngine.Description
import StyleEngine.Selector

/-!
# Descriptions from data

A map spells a description. Four keys are directives, a map under a selector key is nested, and
every other member is a declaration. The first member that does not fit is the error.
-/

namespace StyleEngine

/-- What the key of a member asks for. -/
inductive MemberRole where
  | nest
  | unique
  | debugName
  | priority
  /-- Nests a map and declares anything else. -/
  | selector
  | property
  deriving DecidableEq, Repr

def MemberRole.ofKey (key : String) : MemberRole :=
  if key = "$nest" then nest
  else if key = "$unique" then unique
  else if key = "$debugName" then debugName
  else if key = "$priority" then priority
  else if Selector.isNested key then selector
  else property

/-- What a directive expects. -/
def MemberRole.expectation : MemberRole → Expectation
  | nest => .selectors
  | unique => .boolean
  | debugName => .text
  | priority => .natural
  | selector => .propertyValue
  | property => .propertyValue

namespace Value

mutual

/-- The value that data under `key` spells. Maps spell none. -/
def ofData (key : String) : Data → Except StyleError Value
  | .null => .ok .null
  | .boolean b => .ok (.boolean b)
  | .number n => .ok (.number n.toFloat)
  | .text s => .ok (.text s)
  | .list items => (ofDataAll key items).map .list
  | .map _ => .error (.invalidDescription key .propertyValue .map)

def ofDataAll (key : String) : List Data → Except StyleError (List Value)
  | [] => .ok []
  | item :: rest =>
    match ofData key item with
    | .error e => .error e
    | .ok v => (ofDataAll key rest).map (v :: ·)

end

end Value

namespace Description

/-- Adds a member that is no map. Null leaves a directive unset. -/
def addLeaf (d : Description) (key : String) (value : Data) : Except StyleError Description :=
  match MemberRole.ofKey key, value with
  | .nest, v => if v.isSkipped then .ok d else .error (.invalidDescription key .selectors v.kind)
  | .unique, .null => .ok d
  | .unique, .boolean b => .ok (d.withUnique b)
  | .debugName, .null => .ok d
  | .debugName, .text s => .ok (d.withDebugName s)
  | .priority, .null => .ok d
  | .priority, .number n =>
    match n.priority? with
    | some p => .ok (d.withPriority p)
    | none => .error (.invalidDescription key .natural .number)
  | .selector, v => (Value.ofData key v).map (d.set key)
  | .property, v => (Value.ofData key v).map (d.set key)
  | role, v => .error (.invalidDescription key role.expectation v.kind)

mutual

/-- The description that data spells. -/
def ofData : Data → Except StyleError Description
  | .map members => addMembers {} members
  | value => .error (.invalidDescription "" .description value.kind)

def addMembers (d : Description) : List (String × Data) → Except StyleError Description
  | [] => .ok d
  | (key, value) :: rest =>
    match addMember d key value with
    | .error e => .error e
    | .ok d => addMembers d rest

def addMember (d : Description) (key : String) : Data → Except StyleError Description
  | .map members =>
    match MemberRole.ofKey key with
    | .nest => addNested d members
    | .selector => (addMembers {} members).map (d.nest key)
    | role => .error (.invalidDescription key role.expectation .map)
  | value => addLeaf d key value

/-- Adds the members of a map of selectors. Null and false are left out. -/
def addNested (d : Description) : List (String × Data) → Except StyleError Description
  | [] => .ok d
  | (selector, child) :: rest =>
    if child.isSkipped then addNested d rest
    else
      match ofData child with
      | .error e => .error e
      | .ok c => addNested (d.nest selector c) rest

end

end Description

namespace Keyframes

/-- Adds the members of a map of offsets. Null and false are left out. -/
def addMembers (k : Keyframes) : List (String × Data) → Except StyleError Keyframes
  | [] => .ok k
  | (key, value) :: rest =>
    if key = "$debugName" then
      match value with
      | .null => addMembers k rest
      | .text s => addMembers (k.withDebugName s) rest
      | v => .error (.invalidDescription key .text v.kind)
    else if value.isSkipped then addMembers k rest
    else
      match Description.ofData value with
      | .error e => .error e
      | .ok d => addMembers (k.frame key d) rest

/-- The keyframes that data spells. -/
def ofData : Data → Except StyleError Keyframes
  | .map members => addMembers {} members
  | value => .error (.invalidDescription "" .offsets value.kind)

end Keyframes

end StyleEngine
