import BuildIdCache.Yaml.Cursor

set_option autoImplicit false

namespace BuildIdCache.Yaml

inductive Style
  | plain
  | quoted
  | literal
  | folded
deriving DecidableEq, Repr

structure Flowing where
  text : List Char
  blanks : List Char
  breaks : List Char
  onNewLine : Bool
  escaped : Bool

namespace Flowing

def start : Flowing := ⟨[], [], [], false, false⟩

def join (flowing : Flowing) : List Char :=
  if flowing.onNewLine then
    match flowing.breaks.reverse with
    | '\n' :: more =>
      if flowing.escaped then '\n' :: more else if more.isEmpty then [' '] else more
    | breaks => breaks
  else flowing.blanks.reverse

def settle (flowing : Flowing) : Flowing :=
  ⟨flowing.join.reverse ++ flowing.text, [], [], false, false⟩

def add (flowing : Flowing) (c : Char) : Flowing :=
  let settled := flowing.settle
  { settled with text := c :: settled.text }

def addBlank (flowing : Flowing) (c : Char) : Flowing :=
  if flowing.onNewLine then flowing else { flowing with blanks := c :: flowing.blanks }

def addBreak (flowing : Flowing) (c : Char) : Flowing :=
  { flowing with blanks := [], breaks := c :: flowing.breaks, onNewLine := true }

def escapeBreak (flowing : Flowing) : Flowing :=
  { flowing.settle with onNewLine := true, escaped := true }

end Flowing

def isFlowMark (c : Char) : Bool := c = ',' || c = '[' || c = ']' || c = '{' || c = '}'

def endsPlain (inFlow : Bool) (cursor : Cursor) : Bool :=
  (cursor.seesChar ':' && cursor.blankAt 1) || (inFlow && cursor.sees isFlowMark)

-- Text without quotes. `fresh` holds at the start and after blanks, where a comment or the end of
-- the document may stand; `moved` holds after blanks, where the text has to be indented.
def plainFrom (inFlow : Bool) (indent : Nat) (fresh moved : Bool) (flowing : Flowing)
    (cursor : Cursor) : Nat → Option (Flowing × Cursor)
  | 0 => some (flowing, cursor)
  | room + 1 =>
    match cursor.rest with
    | [] => some (flowing, cursor)
    | c :: _ =>
      if isBlank c then
        if flowing.onNewLine && cursor.column < indent && c = '\t' then none
        else plainFrom inFlow indent true true (flowing.addBlank c) cursor.next room
      else if isBreak c then
        plainFrom inFlow indent true true (flowing.addBreak c) cursor.next room
      else if moved && !inFlow && cursor.column < indent then some (flowing, cursor)
      else if fresh && (cursor.atDocumentMarker || c = '#') then some (flowing, cursor)
      else if inFlow && c = ':' &&
          (cursor.peek? 1).any fun d => d = '?' || isFlowMark d then none
      else if endsPlain inFlow cursor then some (flowing, cursor)
      else plainFrom inFlow indent false false (flowing.add c) cursor.next room

def plain (inFlow : Bool) (indent : Nat) (cursor : Cursor) : Option (Flowing × Cursor) :=
  plainFrom inFlow indent true false .start cursor cursor.rest.length

def simpleEscape? (c : Char) : Option Char :=
  match c with
  | '0' => some '\x00'
  | 'a' => some '\x07'
  | 'b' => some '\x08'
  | 't' => some '\t'
  | '\t' => some '\t'
  | 'n' => some '\n'
  | 'v' => some '\x0b'
  | 'f' => some '\x0c'
  | 'r' => some '\r'
  | 'e' => some '\x1b'
  | ' ' => some ' '
  | '"' => some '"'
  | '/' => some '/'
  | '\\' => some '\\'
  | 'N' => some '\u0085'
  | '_' => some '\u00a0'
  | 'L' => some '\u2028'
  | 'P' => some '\u2029'
  | _ => none

def escapeWidth? (c : Char) : Option Nat :=
  match c with
  | 'x' => some 2
  | 'u' => some 4
  | 'U' => some 8
  | _ => none

def hexValue? (c : Char) : Option Nat :=
  if '0' ≤ c ∧ c ≤ '9' then some (c.toNat - '0'.toNat)
  else if 'a' ≤ c ∧ c ≤ 'f' then some (c.toNat - 'a'.toNat + 10)
  else if 'A' ≤ c ∧ c ≤ 'F' then some (c.toNat - 'A'.toNat + 10)
  else none

def hexNumber? (digits : List Char) : Option Nat :=
  digits.foldlM (fun n c => (hexValue? c).map (n * 16 + ·)) 0

def charOf? (code : Nat) : Option Char := if code.isValidChar then some (Char.ofNat code) else none

def escape? (cursor : Cursor) : Option (Char × Nat) := do
  let mark ← cursor.peek? 1
  match escapeWidth? mark with
  | none => return (← simpleEscape? mark, 2)
  | some width =>
    let digits := (cursor.rest.drop 2).take width
    if digits.length < width then none
    return (← charOf? (← hexNumber? digits), 2 + width)

def quotedFrom (quote : Char) (fresh : Bool) (flowing : Flowing) (cursor : Cursor) :
    Nat → Option (Flowing × Cursor)
  | 0 => none
  | room + 1 =>
    match cursor.rest with
    | [] => none
    | c :: _ =>
      if fresh && cursor.atDocumentMarker then none
      else if isBlank c then
        quotedFrom quote true (flowing.addBlank c) cursor.next room
      else if isBreak c then
        quotedFrom quote true (flowing.addBreak c) cursor.next room
      else if c = '\'' && quote = '\'' && cursor.peek? 1 = some '\'' then
        quotedFrom quote false (flowing.add '\'') (cursor.skip 2) room
      else if c = quote then some (flowing.settle, cursor.next)
      else if c = '\\' && quote = '"' then
        if (cursor.peek? 1).any isBreak then
          quotedFrom quote true flowing.escapeBreak (cursor.skip 2) room
        else
          match escape? cursor with
          | none => none
          | some (plain, length) =>
            quotedFrom quote false (flowing.add plain) (cursor.skip length) room
      else quotedFrom quote false (flowing.add c) cursor.next room

def quoted (quote : Char) (cursor : Cursor) : Option (Flowing × Cursor) :=
  quotedFrom quote true .start cursor.next cursor.rest.length

inductive Chomping
  | strip
  | clip
  | keep
deriving DecidableEq, Repr

def chomping? (c : Char) : Option Chomping :=
  if c = '+' then some .keep else if c = '-' then some .strip else none

def blockMarks? (cursor : Cursor) : Option (Chomping × Nat × Cursor) :=
  let digit? (c : Char) : Option Nat := if c.isDigit then some (c.toNat - '0'.toNat) else none
  match cursor.rest with
  | c :: d :: _ =>
    match chomping? c, digit? c, chomping? d, digit? d with
    | some chomping, _, _, some n =>
      if n = 0 then none else some (chomping, n, cursor.skip 2)
    | some chomping, _, _, none => some (chomping, 0, cursor.next)
    | none, some n, some chomping, _ =>
      if n = 0 then none else some (chomping, n, cursor.skip 2)
    | none, some n, none, _ => if n = 0 then none else some (.clip, n, cursor.next)
    | none, none, _, _ => some (.clip, 0, cursor)
  | [c] =>
    match chomping? c, digit? c with
    | some chomping, _ => some (chomping, 0, cursor.next)
    | none, some n => if n = 0 then none else some (.clip, n, cursor.next)
    | none, none => some (.clip, 0, cursor)
  | [] => some (.clip, 0, cursor)

def blockBreaks (indent deepest : Nat) (breaks : List Char) (cursor : Cursor) :
    Nat → Option (Nat × List Char × Cursor)
  | 0 => some (max deepest cursor.column, breaks.reverse, cursor)
  | room + 1 =>
    let inMargin := indent = 0 || cursor.column < indent
    let seen := max deepest cursor.column
    match cursor.rest with
    | [] => some (seen, breaks.reverse, cursor)
    | c :: _ =>
      if inMargin && c = ' ' then blockBreaks indent deepest breaks cursor.next room
      else if inMargin && c = '\t' then none
      else if isBreak c then blockBreaks indent seen (c :: breaks) cursor.next room
      else some (seen, breaks.reverse, cursor)

-- What has been read of a block: text reversed, the break after its last line, the empty lines
-- after that, and whether the last line began with a blank.
structure Block where
  text : List Char
  lastBreak : List Char
  emptyLines : List Char
  wasBlank : Bool

def Block.join (block : Block) (literal isBlankLine : Bool) : List Char :=
  if !literal && block.lastBreak = ['\n'] && !block.wasBlank && !isBlankLine then
    if block.emptyLines.isEmpty then [' '] else block.emptyLines
  else block.lastBreak ++ block.emptyLines

def blockLines (literal : Bool) (indent : Nat) (block : Block) (cursor : Cursor) :
    Nat → Option (Block × Cursor)
  | 0 => some (block, cursor)
  | room + 1 =>
    if cursor.column ≠ indent || cursor.atEnd then some (block, cursor)
    else
      let blankLine := cursor.sees isBlank
      let line := cursor.takeWhile fun c => !isBreak c
      let after := cursor.skip line.length
      let lastBreak := after.rest.take 1
      match blockBreaks indent 0 [] after.next after.rest.length with
      | none => none
      | some (_, emptyLines, following) =>
        let text := line.reverse ++ ((block.join literal blankLine).reverse ++ block.text)
        blockLines literal indent ⟨text, lastBreak, emptyLines, blankLine⟩ following room

def Block.close (block : Block) : Chomping → List Char
  | .strip => block.text.reverse
  | .clip => block.text.reverse ++ block.lastBreak
  | .keep => block.text.reverse ++ block.lastBreak ++ block.emptyLines

def block (literal : Bool) (outer : Nat) (cursor : Cursor) : Option (List Char × Cursor) := do
  let (chomping, increment, marked) ← blockMarks? cursor
  let spaced := marked.dropWhile isBlank
  let bare := if spaced.seesChar '#' then spaced.dropWhile fun c => !isBreak c else spaced
  if !(bare.atEnd || bare.sees isBreak) then none
  let opened := bare.next
  let given := if increment = 0 then 0 else (outer - 1) + increment
  let (deepest, emptyLines, first) ← blockBreaks given 0 [] opened opened.rest.length
  let indent := if given = 0 then max deepest (max outer 1) else given
  let (read, after) ← blockLines literal indent ⟨[], [], emptyLines, false⟩ first first.rest.length
  return (read.close chomping, after)

end BuildIdCache.Yaml
