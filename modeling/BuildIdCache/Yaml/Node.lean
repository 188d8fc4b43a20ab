import BuildIdCache.Yaml.Token

set_option autoImplicit false

namespace BuildIdCache.Yaml

inductive Node
  | scalar (style : Style) (tag : Option String) (text : String)
  | sequence (tag : Option String) (items : List Node)
  | mapping (tag : Option String) (members : List (Node × Node))
  | alias (number : Nat)
deriving Inhabited

-- The anchored nodes stand with their numbers, and with the order in which they began: where two
-- nodes have one number, the later one is meant.
structure Anchored where
  number : Nat
  order : Nat
  node : Node

structure Document where
  root : Node
  anchored : List Anchored

def Document.target? (document : Document) (number : Nat) : Option Node :=
  let named := document.anchored.filter fun a => a.number = number
  (named.foldl (fun best a =>
    match best with
    | some (b : Anchored) => if b.order < a.order then some a else best
    | none => some a) none).map (·.node)

structure Reading where
  tokens : List Token
  handles : List (String × String)
  numbers : List (String × Nat)
  anchored : List Anchored
  order : Nat

abbrev Read (α : Type) : Type := StateT Reading Option α

namespace Read

def fail {α : Type} : Read α := fun _ => none

def peek : Read Token := fun reading =>
  some (reading.tokens.head?.getD .streamEnd, reading)

def skip : Read Unit := fun reading => some ((), { reading with tokens := reading.tokens.tail })

def expect (token : Token) : Read Unit := do
  if (← peek) = token then skip else fail

def defaultHandles : List (String × String) := [("!", "!"), ("!!", "tag:yaml.org,2002:")]

-- An anchor that is set again keeps no claim on its old number; numbers count the names set.
def number (name : String) : Read (Nat × Nat) := fun reading =>
  let number := reading.numbers.length
  let others := reading.numbers.filter fun n => n.1 ≠ name
  some ((number, reading.order),
    { reading with numbers := (name, number) :: others, order := reading.order + 1 })

def anchor (place : Option (Nat × Nat)) (node : Node) : Read Node := fun reading =>
  match place with
  | none => some (node, reading)
  | some (number, order) =>
    some (node, { reading with anchored := ⟨number, order, node⟩ :: reading.anchored })

def tagText (handle suffix : String) : Read String := fun reading =>
  if handle.isEmpty then some (suffix, reading)
  else
    match reading.handles.find? fun h => h.1 = handle with
    | some (_, full) => some (full ++ suffix, reading)
    | none => none

structure Properties where
  anchor : Option String
  tag : Option String

def properties : Read Properties := do
  match ← peek with
  | .anchor name =>
    skip
    match ← peek with
    | .tag handle suffix =>
      skip
      return ⟨some name, some (← tagText handle suffix)⟩
    | _ => return ⟨some name, none⟩
  | .tag handle suffix =>
    skip
    match ← peek with
    | .anchor name =>
      skip
      return ⟨some name, some (← tagText handle suffix)⟩
    | _ => return ⟨none, some (← tagText handle suffix)⟩
  | _ => return ⟨none, none⟩

def emptyNode : Node := .scalar .plain none ""

def endsEntry (indentless : Bool) : Token → Bool
  | .blockEntry | .blockEnd => true
  | .key | .value => indentless
  | _ => false

def endsMember : Token → Bool
  | .key | .value | .blockEnd => true
  | _ => false

def endsFlowKey : Token → Bool
  | .value | .flowEntry | .closeMapping => true
  | _ => false

def endsFlowValue : Token → Bool
  | .flowEntry | .closeMapping => true
  | _ => false

def endsPairKey : Token → Bool
  | .value | .flowEntry | .closeSequence => true
  | _ => false

def endsPairValue : Token → Bool
  | .flowEntry | .closeSequence => true
  | _ => false

mutual

def node (inBlock indentless : Bool) : Nat → Read Node
  | 0 => fail
  | room + 1 => do
    if let .alias name := ← peek then
      skip
      match (← get).numbers.find? fun n => n.1 = name with
      | some (_, number) => return .alias number
      | none => fail
    else
      let given ← properties
      let place ← match given.anchor with
        | some name => some <$> number name
        | none => pure none
      let tag := given.tag
      let found ← match ← peek with
        | .scalar style text => do
          skip
          pure (Node.scalar style tag text)
        | .openSequence => do
          skip
          pure (.sequence tag (← flowItems true room))
        | .openMapping => do
          skip
          pure (.mapping tag (← flowMembers true room))
        | .blockSequence =>
          if inBlock then do
            skip
            pure (.sequence tag (← blockItems false room))
          else if given.anchor.isSome || tag.isSome then pure (.scalar .plain tag "")
          else fail
        | .blockMapping =>
          if inBlock then do
            skip
            pure (.mapping tag (← blockMembers room))
          else if given.anchor.isSome || tag.isSome then pure (.scalar .plain tag "")
          else fail
        | .blockEntry =>
          if indentless then do pure (.sequence tag (← blockItems true room))
          else if given.anchor.isSome || tag.isSome then pure (.scalar .plain tag "")
          else fail
        | _ =>
          if given.anchor.isSome || tag.isSome then pure (.scalar .plain tag "") else fail
      anchor place found

def blockItems (indentless : Bool) : Nat → Read (List Node)
  | 0 => fail
  | room + 1 => do
    match ← peek with
    | .blockEntry => do
      skip
      let item ← if endsEntry indentless (← peek) then pure emptyNode else node true false room
      return item :: (← blockItems indentless room)
    | .blockEnd => do
      if !indentless then skip
      return []
    | _ => if indentless then return [] else fail

def blockMembers : Nat → Read (List (Node × Node))
  | 0 => fail
  | room + 1 => do
    match ← peek with
    | .key => do
      skip
      let key ← if endsMember (← peek) then pure emptyNode else node true true room
      let value ← blockValue room
      return (key, value) :: (← blockMembers room)
    | .blockEnd => do
      skip
      return []
    | _ => fail

def blockValue : Nat → Read Node
  | 0 => fail
  | room + 1 => do
    if (← peek) = .value then
      skip
      if endsMember (← peek) then return emptyNode else node true true room
    else return emptyNode

def flowItems (first : Bool) : Nat → Read (List Node)
  | 0 => fail
  | room + 1 => do
    if (← peek) = .closeSequence then
      skip
      return []
    else
      if !first then expect .flowEntry
      match ← peek with
      | .closeSequence => do
        skip
        return []
      | .key => do
        skip
        let pair ← flowPair room
        return pair :: (← flowItems false room)
      | _ => do
        let item ← node false false room
        return item :: (← flowItems false room)

def flowPair : Nat → Read Node
  | 0 => fail
  | room + 1 => do
    let key ← if endsPairKey (← peek) then do
        skip
        pure emptyNode
      else node false false room
    let value ← if (← peek) = .value then do
        skip
        if endsPairValue (← peek) then pure emptyNode else node false false room
      else pure emptyNode
    return .mapping none [(key, value)]

def flowMembers (first : Bool) : Nat → Read (List (Node × Node))
  | 0 => fail
  | room + 1 => do
    if (← peek) = .closeMapping then
      skip
      return []
    else
      if !first then expect .flowEntry
      match ← peek with
      | .closeMapping => do
        skip
        return []
      | .key => do
        skip
        let key ← if endsFlowKey (← peek) then pure emptyNode else node false false room
        let value ← if (← peek) = .value then do
            skip
            if endsFlowValue (← peek) then pure emptyNode else node false false room
          else pure emptyNode
        return (key, value) :: (← flowMembers false room)
      | _ => do
        let key ← node false false room
        return (key, emptyNode) :: (← flowMembers false room)

end

def directives (versionSeen : Bool) (handles : List (String × String)) :
    Nat → Read (List (String × String))
  | 0 => fail
  | room + 1 => do
    match ← peek with
    | .version major minor =>
      if versionSeen || major ≠ 1 || (minor ≠ 1 && minor ≠ 2) then fail
      else
        skip
        directives true handles room
    | .tagHandle handle full =>
      if handles.any fun h => h.1 = handle then fail
      else
        skip
        directives versionSeen (handles ++ [(handle, full)]) room
    | _ => return handles

def skipDocumentEnds : Nat → Read Unit
  | 0 => return ()
  | room + 1 => do
    if (← peek) = .documentEnd then
      skip
      skipDocumentEnds room

def startsContent : Token → Bool
  | .version .. | .tagHandle .. | .documentStart | .documentEnd | .streamEnd => false
  | _ => true

def content (room : Nat) : Read Document := do
  modify fun reading => { reading with numbers := [], anchored := [], order := 0 }
  let root ← if startsContent (← peek) then node true false room else pure emptyNode
  return ⟨root, (← get).anchored⟩

def document? (first : Bool) (room : Nat) : Read (Option Document) := do
  if !first then skipDocumentEnds room
  let token ← peek
  if token = .streamEnd then return none
  else
    let bare := first && startsContent token
    let declared ← if bare then pure [] else directives false [] room
    if !bare then expect .documentStart
    modify fun reading => { reading with handles := declared ++ defaultHandles }
    let document ← content room
    if (← peek) = .documentEnd then skip
    return some document

def documents (first : Bool) (room : Nat) : Nat → Read (List Document)
  | 0 => fail
  | more + 1 => do
    match ← document? first room with
    | none => return []
    | some document => return document :: (← documents false room more)

end Read

def documents? (text : String) : Option (List Document) := do
  let tokens ← tokens? text
  let room := 2 * tokens.length + 2
  let (documents, _) ← (Read.documents true room room).run ⟨tokens, [], [], [], 0⟩
  return documents

end BuildIdCache.Yaml
