set_option autoImplicit false

namespace BuildIdCache.Yaml

def normalizeBreaks : List Char → List Char
  | [] => []
  | '\r' :: '\n' :: rest => '\n' :: normalizeBreaks rest
  | '\r' :: rest => '\n' :: normalizeBreaks rest
  | c :: rest => (if c = '\u0085' then '\n' else c) :: normalizeBreaks rest

def isBreak (c : Char) : Bool := c = '\n' || c = '\u2028' || c = '\u2029'

def isBlank (c : Char) : Bool := c = ' ' || c = '\t'

def isAllowed (c : Char) : Bool :=
  let n := c.toNat
  n = 0x9 || n = 0xA || n = 0xD || (0x20 ≤ n && n ≤ 0x7E) || n = 0x85 ||
    (0xA0 ≤ n && n ≤ 0xD7FF) || (0xE000 ≤ n && n ≤ 0xFFFD) || 0x10000 ≤ n

def isWordChar (c : Char) : Bool := c.isAlphanum || c = '_' || c = '-'

structure Cursor where
  rest : List Char
  index : Nat
  line : Nat
  column : Nat
deriving Inhabited

namespace Cursor

def peek? (cursor : Cursor) (ahead : Nat) : Option Char := cursor.rest[ahead]?

def atEnd (cursor : Cursor) : Bool := cursor.rest.isEmpty

def sees (cursor : Cursor) (p : Char → Bool) : Bool := cursor.rest.head?.any p

def seesChar (cursor : Cursor) (c : Char) : Bool := cursor.rest.head? = some c

def blankAt (cursor : Cursor) (ahead : Nat) : Bool :=
  match cursor.peek? ahead with
  | none => true
  | some c => isBlank c || isBreak c

def next (cursor : Cursor) : Cursor :=
  match cursor.rest with
  | [] => cursor
  | c :: rest =>
    if isBreak c then ⟨rest, cursor.index + 1, cursor.line + 1, 0⟩
    else ⟨rest, cursor.index + 1, cursor.line, cursor.column + 1⟩

def skip (cursor : Cursor) : Nat → Cursor
  | 0 => cursor
  | n + 1 => cursor.next.skip n

def takeWhile (cursor : Cursor) (p : Char → Bool) : List Char := cursor.rest.takeWhile p

def dropWhile (cursor : Cursor) (p : Char → Bool) : Cursor :=
  cursor.skip (cursor.takeWhile p).length

def atMarker (cursor : Cursor) (c : Char) : Bool :=
  cursor.column = 0 && cursor.rest.take 3 = [c, c, c] && cursor.blankAt 3

def atDocumentMarker (cursor : Cursor) : Bool := cursor.atMarker '-' || cursor.atMarker '.'

end Cursor

end BuildIdCache.Yaml
