import BuildIdCache.Json.Token

set_option autoImplicit false

namespace BuildIdCache.Json

/-- Numbers keep their text, and objects keep their members in order, repeated keys included. -/
inductive Value
  | null
  | bool (b : Bool)
  | number (text : List Char)
  | string (pieces : List Piece)
  | array (items : List Value)
  | object (members : List (List Piece × Value))
deriving Inhabited

namespace Value

def ofString (text : String) : Value := .string (text.toList.map .char)

def ofNat (n : Nat) : Value := .number (Nat.toDigits 10 n)

def ofStrings (texts : List String) : Value := .array (texts.map ofString)

def ofMembers (members : List (String × Value)) : Value :=
  .object (members.map fun m => (m.1.toList.map .char, m.2))

end Value

inductive Container
  | array (items : List Value)
  | object (members : List (List Piece × Value))

def Container.close : Container → Value
  | .array items => .array items.reverse
  | .object members => .object members.reverse

inductive Awaited
  | value
  | valueOrEnd
  | key
  | keyOrEnd
  | colon (key : List Piece)
  | member (key : List Piece)
  | separator
  | nothing

-- Containers are listed from the innermost outwards, those around a member with its key.
structure Building where
  opened : List (Container × Option (List Piece))
  awaited : Awaited
  result : Option Value

namespace Building

def start : Building := ⟨[], .value, none⟩

def add (value : Value) : Container → Option (List Piece) → Container
  | .array items, _ => .array (value :: items)
  | .object members, some key => .object ((key, value) :: members)
  | .object members, none => .object members

def give (building : Building) (key : Option (List Piece)) (value : Value) : Building :=
  match building.opened with
  | [] => ⟨[], .nothing, some value⟩
  | (container, outer) :: rest => ⟨(add value container key, outer) :: rest, .separator, none⟩

def close (building : Building) : Option Building :=
  match building.opened with
  | [] => none
  | (container, key) :: rest =>
    some (give ⟨rest, .separator, none⟩ key container.close)

def ofLiteral : Literal → Value
  | .null => .null
  | .bool b => .bool b

def value (building : Building) (key : Option (List Piece)) : Token → Option Building
  | .literal l => some (building.give key (ofLiteral l))
  | .number text => some (building.give key (.number text))
  | .string pieces => some (building.give key (.string pieces))
  | .openArray => some ⟨(.array [], key) :: building.opened, .valueOrEnd, none⟩
  | .openObject => some ⟨(.object [], key) :: building.opened, .keyOrEnd, none⟩
  | _ => none

def isArray (building : Building) : Bool :=
  match building.opened with
  | (.array _, _) :: _ => true
  | _ => false

def step (building : Building) (token : Token) : Option Building :=
  match building.awaited, token with
  | .value, token => building.value none token
  | .member key, token => building.value (some key) token
  | .valueOrEnd, .closeArray => building.close
  | .valueOrEnd, token => building.value none token
  | .keyOrEnd, .closeObject => building.close
  | .keyOrEnd, .string key => some { building with awaited := .colon key }
  | .key, .string key => some { building with awaited := .colon key }
  | .colon key, .colon => some { building with awaited := .member key }
  | .separator, .comma =>
    some { building with awaited := if building.isArray then .value else .key }
  | .separator, .closeArray => if building.isArray then building.close else none
  | .separator, .closeObject => if building.isArray then none else building.close
  | _, _ => none

end Building

def Value.ofTokens? (tokens : List Token) : Option Value :=
  (tokens.foldlM Building.step .start).bind (·.result)

def Value.parse? (text : String) : Option Value := (tokens? text.toList).bind ofTokens?

end BuildIdCache.Json
