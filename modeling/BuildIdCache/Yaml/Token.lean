import BuildIdCache.Yaml.Scalar

set_option autoImplicit false

namespace BuildIdCache.Yaml

inductive Token
  | streamEnd
  | version (major minor : Nat)
  | tagHandle (handle full : String)
  | documentStart
  | documentEnd
  | blockSequence
  | blockMapping
  | blockEnd
  | openSequence
  | closeSequence
  | openMapping
  | closeMapping
  | blockEntry
  | flowEntry
  | key
  | value
  | alias (name : String)
  | anchor (name : String)
  | tag (handle suffix : String)
  | scalar (style : Style) (text : String)
deriving DecidableEq, Repr

structure PossibleKey where
  required : Bool
  position : Nat
  cursor : Cursor

-- The list `indents` holds one more than the column of every open block, from the innermost
-- outwards; `keys` holds the possible key of every open flow collection and of the block around
-- them.
structure Scan where
  cursor : Cursor
  tokens : Array Token
  indents : List Nat
  keys : List (Option PossibleKey)
  keyAllowed : Bool

namespace Scan

def start (text : List Char) : Scan := ⟨⟨text, 0, 0, 0⟩, #[], [], [none], true⟩

def inFlow (scan : Scan) : Bool := scan.keys.length > 1

def indent (scan : Scan) : Nat := scan.indents.head?.getD 0

def emit (scan : Scan) (token : Token) : Scan := { scan with tokens := scan.tokens.push token }

def moveTo (scan : Scan) (cursor : Cursor) : Scan := { scan with cursor := cursor }

def allowKey (scan : Scan) (allowed : Bool) : Scan := { scan with keyAllowed := allowed }

def setKey (scan : Scan) (key : Option PossibleKey) : Scan :=
  { scan with keys := key :: scan.keys.tail }

def dropKey? (scan : Scan) : Option Scan :=
  match scan.keys.head?.join with
  | some key => if key.required then none else some (scan.setKey none)
  | none => some (scan.setKey none)

def saveKey? (scan : Scan) : Option Scan :=
  if scan.keyAllowed then do
    let dropped ← scan.dropKey?
    let required := !scan.inFlow && scan.indent = scan.cursor.column + 1
    return dropped.setKey (some ⟨required, scan.tokens.size, scan.cursor⟩)
  else some scan

def roll (scan : Scan) (column : Nat) (token : Token) (position : Nat) : Scan :=
  if scan.inFlow || column + 1 ≤ scan.indent then scan
  else
    { scan with
      indents := (column + 1) :: scan.indents
      tokens := scan.tokens.insertIdxIfInBounds position token }

def unrollFrom (bound : Nat) (tokens : Array Token) : List Nat → List Nat × Array Token
  | [] => ([], tokens)
  | indent :: outer =>
    if bound < indent then unrollFrom bound (tokens.push .blockEnd) outer
    else (indent :: outer, tokens)

def unroll (scan : Scan) (bound : Nat) : Scan :=
  if scan.inFlow then scan
  else
    let (indents, tokens) := unrollFrom bound scan.tokens scan.indents
    { scan with indents := indents, tokens := tokens }

def skipSpace (scan : Scan) : Nat → Scan
  | 0 => scan
  | room + 1 =>
    let cursor := scan.cursor
    if cursor.column = 0 && cursor.seesChar '\uFEFF' then (scan.moveTo cursor.next).skipSpace room
    else if cursor.seesChar ' ' ||
        ((scan.inFlow || !scan.keyAllowed) && cursor.seesChar '\t') then
      (scan.moveTo cursor.next).skipSpace room
    else if cursor.seesChar '#' then
      (scan.moveTo (cursor.dropWhile fun c => !isBreak c)).skipSpace room
    else if cursor.sees isBreak then
      let moved := scan.moveTo cursor.next
      (if scan.inFlow then moved else moved.allowKey true).skipSpace room
    else scan

def number? (digits : List Char) : Option Nat :=
  if digits.isEmpty || 9 < digits.length then none
  else some (digits.foldl (fun n c => n * 10 + (c.toNat - '0'.toNat)) 0)

def isUriChar (c : Char) : Bool := isWordChar c || c ∈ ";/?:@&=+$.%!~*'()".toList

def uriBytes? : List Char → Option (List UInt8)
  | [] => some []
  | '%' :: a :: b :: rest => do
    let high ← hexValue? a
    let low ← hexValue? b
    return UInt8.ofNat (high * 16 + low) :: (← uriBytes? rest)
  | '%' :: _ => none
  | c :: rest => do return (String.singleton c).toUTF8.toList ++ (← uriBytes? rest)

def uri? (chars : List Char) : Option String :=
  (uriBytes? chars).bind fun bytes => String.fromUTF8? ⟨bytes.toArray⟩

def handle? (cursor : Cursor) : Option (List Char × Bool × Cursor) :=
  if cursor.seesChar '!' then
    let word := cursor.next.takeWhile isWordChar
    let after := cursor.next.skip word.length
    if after.seesChar '!' then some ('!' :: word ++ ['!'], true, after.next)
    else some ('!' :: word, false, after)
  else none

def directive? (cursor : Cursor) : Option (Token × Cursor) := do
  let name := cursor.next.takeWhile isWordChar
  let after := cursor.next.skip name.length
  if !after.blankAt 0 then none
  let spaced := after.dropWhile isBlank
  if name = "YAML".toList then
    let major := spaced.takeWhile Char.isDigit
    let point := spaced.skip major.length
    if !point.seesChar '.' then none
    let minor := point.next.takeWhile Char.isDigit
    return (.version (← number? major) (← number? minor), point.next.skip minor.length)
  else if name = "TAG".toList then
    let (handle, closed, gap) ← handle? spaced
    if !(closed || handle = ['!']) || !gap.sees isBlank then none
    let full := gap.dropWhile isBlank
    let chars := full.takeWhile fun c => isUriChar c || c = ',' || c = '[' || c = ']'
    let done := full.skip chars.length
    if chars.isEmpty || !done.blankAt 0 then none
    return (.tagHandle (String.ofList handle) (← uri? chars), done)
  else none

def fetchDirective? (scan : Scan) : Option Scan := do
  let scan ← (scan.unroll 0).dropKey?
  let (token, after) ← directive? scan.cursor
  let spaced := after.dropWhile isBlank
  let bare := if spaced.seesChar '#' then spaced.dropWhile fun c => !isBreak c else spaced
  if !(bare.atEnd || bare.sees isBreak) then none
  return ((scan.emit token).moveTo bare.next).allowKey false

def fetchMarker? (scan : Scan) (token : Token) : Option Scan := do
  let scan ← (scan.unroll 0).dropKey?
  return ((scan.emit token).moveTo (scan.cursor.skip 3)).allowKey false

def fetchOpen? (scan : Scan) (token : Token) : Option Scan := do
  let scan ← scan.saveKey?
  let scan := { scan with keys := none :: scan.keys }
  return ((scan.emit token).moveTo scan.cursor.next).allowKey true

def fetchClose? (scan : Scan) (token : Token) : Option Scan := do
  let scan ← scan.dropKey?
  let scan := if scan.inFlow then { scan with keys := scan.keys.tail } else scan
  return ((scan.emit token).moveTo scan.cursor.next).allowKey false

def fetchFlowEntry? (scan : Scan) : Option Scan := do
  let scan ← scan.dropKey?
  return ((scan.emit .flowEntry).moveTo scan.cursor.next).allowKey true

def startInBlock? (scan : Scan) (token : Token) : Option Scan :=
  if scan.inFlow then some scan
  else if scan.keyAllowed then some (scan.roll scan.cursor.column token scan.tokens.size)
  else none

def fetchBlockEntry? (scan : Scan) : Option Scan := do
  let scan ← scan.startInBlock? .blockSequence
  let scan ← scan.dropKey?
  return ((scan.emit .blockEntry).moveTo scan.cursor.next).allowKey true

def fetchKey? (scan : Scan) : Option Scan := do
  let scan ← scan.startInBlock? .blockMapping
  let scan ← scan.dropKey?
  return ((scan.emit .key).moveTo scan.cursor.next).allowKey (!scan.inFlow)

def isStale (key : PossibleKey) (cursor : Cursor) : Bool :=
  key.cursor.line < cursor.line || key.cursor.index + 1024 < cursor.index

def liveKey? (scan : Scan) : Option (Option PossibleKey) :=
  match scan.keys.head?.join with
  | none => some none
  | some key =>
    if isStale key scan.cursor then if key.required then none else some none
    else some (some key)

def fetchValue? (scan : Scan) : Option Scan := do
  match ← scan.liveKey? with
  | some key =>
    let keyed := { scan with tokens := scan.tokens.insertIdxIfInBounds key.position .key }
    let rolled := (keyed.roll key.cursor.column .blockMapping key.position).setKey none
    return ((rolled.emit .value).moveTo scan.cursor.next).allowKey false
  | none =>
    let scan ← (scan.setKey none).startInBlock? .blockMapping
    return ((scan.emit .value).moveTo scan.cursor.next).allowKey (!scan.inFlow)

def fetchName? (scan : Scan) (token : String → Token) : Option Scan := do
  let scan ← scan.saveKey?
  let name := scan.cursor.next.takeWhile isWordChar
  let after := scan.cursor.next.skip name.length
  let ends := after.blankAt 0 || after.sees fun c => c ∈ "?:,]\x7d%@`".toList
  if name.isEmpty || !ends then none
  return ((scan.emit (token (String.ofList name))).moveTo after).allowKey false

def tag? (cursor : Cursor) : Option (Token × Cursor) := do
  if cursor.peek? 1 = some '<' then
    let full := cursor.skip 2
    let chars := full.takeWhile fun c => isUriChar c || c = ',' || c = '[' || c = ']'
    let after := full.skip chars.length
    if chars.isEmpty || !after.seesChar '>' then none
    return (.tag "" (← uri? chars), after.next)
  else
    let (handle, closed, after) ← handle? cursor
    let chars := after.takeWhile isUriChar
    let done := after.skip chars.length
    if closed then
      if chars.isEmpty then none
      return (.tag (String.ofList handle) (← uri? chars), done)
    else
      match handle.drop 1 ++ chars with
      | [] => return (.tag "" "!", done)
      | suffix => return (.tag "!" (← uri? suffix), done)

def fetchTag? (scan : Scan) : Option Scan := do
  let scan ← scan.saveKey?
  let (token, after) ← tag? scan.cursor
  if !(after.blankAt 0 || (scan.inFlow && after.seesChar ',')) then none
  return ((scan.emit token).moveTo after).allowKey false

def fetchBlock? (scan : Scan) (style : Style) : Option Scan := do
  let scan ← scan.dropKey?
  let (text, after) ← block (style = .literal) scan.indent scan.cursor.next
  return ((scan.emit (.scalar style (String.ofList text))).moveTo after).allowKey true

def fetchQuoted? (scan : Scan) (quote : Char) : Option Scan := do
  let scan ← scan.saveKey?
  let (flowing, after) ← quoted quote scan.cursor
  let token := Token.scalar .quoted (String.ofList flowing.text.reverse)
  return ((scan.emit token).moveTo after).allowKey false

def fetchPlain? (scan : Scan) : Option Scan := do
  let scan ← scan.saveKey?
  let (flowing, after) ← plain scan.inFlow scan.indent scan.cursor
  let token := Token.scalar .plain (String.ofList flowing.text.reverse)
  return ((scan.emit token).moveTo after).allowKey flowing.onNewLine

def fetchEnd? (scan : Scan) : Option Scan := do
  let scan ← (scan.unroll 0).dropKey?
  return scan.emit .streamEnd

def neverStartsPlain : List Char := "-?:,[]\x7b\x7d#&*!|>'\"%@`".toList

def startsPlain (scan : Scan) (c : Char) : Bool :=
  let cursor := scan.cursor
  !(isBlank c || isBreak c || c ∈ neverStartsPlain) ||
    (c = '-' && !(cursor.peek? 1).any isBlank) ||
    (!scan.inFlow && (c = '?' || c = ':') && !cursor.blankAt 1)

def fetch? (scan : Scan) (c : Char) : Option Scan :=
  let cursor := scan.cursor
  let inFlow := scan.inFlow
  if cursor.column = 0 && c = '%' then scan.fetchDirective?
  else if cursor.atMarker '-' then scan.fetchMarker? .documentStart
  else if cursor.atMarker '.' then scan.fetchMarker? .documentEnd
  else if c = '[' then scan.fetchOpen? .openSequence
  else if c = '{' then scan.fetchOpen? .openMapping
  else if c = ']' then scan.fetchClose? .closeSequence
  else if c = '}' then scan.fetchClose? .closeMapping
  else if c = ',' then scan.fetchFlowEntry?
  else if c = '-' && cursor.blankAt 1 then scan.fetchBlockEntry?
  else if c = '?' && (inFlow || cursor.blankAt 1) then scan.fetchKey?
  else if c = ':' && (inFlow || cursor.blankAt 1) then scan.fetchValue?
  else if c = '*' then scan.fetchName? .alias
  else if c = '&' then scan.fetchName? .anchor
  else if c = '!' then scan.fetchTag?
  else if c = '|' && !inFlow then scan.fetchBlock? .literal
  else if c = '>' && !inFlow then scan.fetchBlock? .folded
  else if c = '\'' then scan.fetchQuoted? '\''
  else if c = '"' then scan.fetchQuoted? '"'
  else if scan.startsPlain c then scan.fetchPlain?
  else none

def run? (scan : Scan) : Nat → Option (List Token)
  | 0 => none
  | room + 1 =>
    let spaced := scan.skipSpace scan.cursor.rest.length
    match spaced.cursor.rest.head? with
    | none => spaced.fetchEnd?.map fun done => done.tokens.toList
    | some c =>
      match (spaced.unroll (spaced.cursor.column + 1)).fetch? c with
      | none => none
      | some next => next.run? room

end Scan

def dropMark : List Char → List Char
  | '\uFEFF' :: rest => rest
  | text => text

def tokens? (text : String) : Option (List Token) :=
  let chars := dropMark text.toList
  if chars.all isAllowed then
    let stream := normalizeBreaks chars
    (Scan.start stream).run? (stream.length + 1)
  else none

end BuildIdCache.Yaml
