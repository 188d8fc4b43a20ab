set_option autoImplicit false

namespace BuildIdCache.Json

-- A string is kept in pieces, since an escaped code unit need not be a character by itself.
inductive Piece
  | char (c : Char)
  | unit (code : Nat)
deriving DecidableEq, Repr

inductive Literal
  | null
  | bool (b : Bool)
deriving DecidableEq, Repr

inductive Token
  | openArray
  | closeArray
  | openObject
  | closeObject
  | comma
  | colon
  | literal (l : Literal)
  | number (text : List Char)
  | string (pieces : List Piece)
deriving DecidableEq, Repr

namespace Lexer

def isSpace (c : Char) : Bool := c = ' ' || c = '\t' || c = '\n' || c = '\r'

def isDigit (c : Char) : Bool := '0' ≤ c && c ≤ '9'

def isLetter (c : Char) : Bool := 'a' ≤ c && c ≤ 'z'

def isNumberChar (c : Char) : Bool :=
  isDigit c || c = '-' || c = '+' || c = '.' || c = 'e' || c = 'E'

def isDigits (text : List Char) : Bool := !text.isEmpty && text.all isDigit

def isExponent : List Char → Bool
  | [] => true
  | c :: rest =>
    (c = 'e' || c = 'E') &&
      match rest with
      | '+' :: digits => isDigits digits
      | '-' :: digits => isDigits digits
      | digits => isDigits digits

def isFraction : List Char → Bool
  | '.' :: rest => isDigits (rest.takeWhile isDigit) && isExponent (rest.dropWhile isDigit)
  | rest => isExponent rest

def isUnsigned : List Char → Bool
  | '0' :: rest => isFraction rest
  | text => isDigits (text.takeWhile isDigit) && isFraction (text.dropWhile isDigit)

def isNumber : List Char → Bool
  | '-' :: rest => isUnsigned rest
  | text => isUnsigned text

def literal? (word : List Char) : Option Literal :=
  if word = "null".toList then some .null
  else if word = "true".toList then some (.bool true)
  else if word = "false".toList then some (.bool false)
  else none

def hexValue? (c : Char) : Option Nat :=
  if isDigit c then some (c.toNat - '0'.toNat)
  else if 'a' ≤ c ∧ c ≤ 'f' then some (c.toNat - 'a'.toNat + 10)
  else if 'A' ≤ c ∧ c ≤ 'F' then some (c.toNat - 'A'.toNat + 10)
  else none

def escape? (c : Char) : Option Char :=
  match c with
  | '"' => some '"'
  | '\\' => some '\\'
  | '/' => some '/'
  | 'b' => some '\x08'
  | 'f' => some '\x0c'
  | 'n' => some '\n'
  | 'r' => some '\r'
  | 't' => some '\t'
  | _ => none

inductive State
  | between
  | number (seen : List Char)
  | word (seen : List Char)
  | string (pieces : List Piece)
  | escape (pieces : List Piece)
  | unit (pieces : List Piece) (due code : Nat)

structure Reading where
  tokens : List Token
  state : State

def start (tokens : List Token) (c : Char) : Option Reading :=
  match c with
  | '[' => some ⟨.openArray :: tokens, .between⟩
  | ']' => some ⟨.closeArray :: tokens, .between⟩
  | '{' => some ⟨.openObject :: tokens, .between⟩
  | '}' => some ⟨.closeObject :: tokens, .between⟩
  | ',' => some ⟨.comma :: tokens, .between⟩
  | ':' => some ⟨.colon :: tokens, .between⟩
  | '"' => some ⟨tokens, .string []⟩
  | '-' => some ⟨tokens, .number ['-']⟩
  | c =>
    if isSpace c then some ⟨tokens, .between⟩
    else if isDigit c then some ⟨tokens, .number [c]⟩
    else if isLetter c then some ⟨tokens, .word [c]⟩
    else none

def closeNumber (tokens : List Token) (seen : List Char) : Option (List Token) :=
  if isNumber seen.reverse then some (.number seen.reverse :: tokens) else none

def closeWord (tokens : List Token) (seen : List Char) : Option (List Token) :=
  (literal? seen.reverse).map fun l => .literal l :: tokens

def step (reading : Reading) (c : Char) : Option Reading :=
  let tokens := reading.tokens
  match reading.state with
  | .between => start tokens c
  | .number seen =>
    if isNumberChar c then some ⟨tokens, .number (c :: seen)⟩
    else (closeNumber tokens seen).bind fun tokens => start tokens c
  | .word seen =>
    if isLetter c then some ⟨tokens, .word (c :: seen)⟩
    else (closeWord tokens seen).bind fun tokens => start tokens c
  | .string pieces =>
    if c = '"' then some ⟨.string pieces.reverse :: tokens, .between⟩
    else if c = '\\' then some ⟨tokens, .escape pieces⟩
    else if c.toNat < 0x20 then none
    else some ⟨tokens, .string (.char c :: pieces)⟩
  | .escape pieces =>
    if c = 'u' then some ⟨tokens, .unit pieces 4 0⟩
    else (escape? c).map fun plain => ⟨tokens, .string (.char plain :: pieces)⟩
  | .unit pieces due code =>
    (hexValue? c).map fun digit =>
      let code := code * 16 + digit
      if due ≤ 1 then ⟨tokens, .string (.unit code :: pieces)⟩
      else ⟨tokens, .unit pieces (due - 1) code⟩

def finish (reading : Reading) : Option (List Token) :=
  let tokens := match reading.state with
    | .between => some reading.tokens
    | .number seen => closeNumber reading.tokens seen
    | .word seen => closeWord reading.tokens seen
    | _ => none
  tokens.map List.reverse

end Lexer

def tokens? (text : List Char) : Option (List Token) :=
  (text.foldlM Lexer.step ⟨[], .between⟩).bind Lexer.finish

end BuildIdCache.Json
