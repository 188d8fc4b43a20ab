import BuildIdCache.BuildId
import BuildIdCache.Json.Value

set_option autoImplicit false

namespace BuildIdCache.Json

def hexUnit (code : Nat) : List Char :=
  [code / 4096 % 16, code / 256 % 16, code / 16 % 16, code % 16].map BuildId.hexDigit

def writeChar (c : Char) : List Char :=
  match c with
  | '"' => ['\\', '"']
  | '\\' => ['\\', '\\']
  | '\x08' => ['\\', 'b']
  | '\x0c' => ['\\', 'f']
  | '\n' => ['\\', 'n']
  | '\r' => ['\\', 'r']
  | '\t' => ['\\', 't']
  | c => if c.toNat < 0x20 then '\\' :: 'u' :: hexUnit c.toNat else [c]

def writePiece : Piece → List Char
  | .char c => writeChar c
  | .unit code => '\\' :: 'u' :: hexUnit code

def writeString (pieces : List Piece) : List Char :=
  '"' :: (pieces.flatMap writePiece ++ ['"'])

def writeBool (b : Bool) : List Char := if b then "true".toList else "false".toList

mutual

def compact : Value → List Char
  | .null => "null".toList
  | .bool b => writeBool b
  | .number text => text
  | .string pieces => writeString pieces
  | .array items => '[' :: (compactItems items ++ [']'])
  | .object members => '{' :: (compactMembers members ++ ['}'])

def compactItems : List Value → List Char
  | [] => []
  | [item] => compact item
  | item :: rest => compact item ++ ',' :: compactItems rest

def compactMembers : List (List Piece × Value) → List Char
  | [] => []
  | [(key, value)] => writeString key ++ ':' :: compact value
  | (key, value) :: rest => writeString key ++ ':' :: (compact value ++ ',' :: compactMembers rest)

end

def newLine (depth : Nat) : List Char := '\n' :: List.replicate (2 * depth) ' '

mutual

def pretty (depth : Nat) : Value → List Char
  | .null => "null".toList
  | .bool b => writeBool b
  | .number text => text
  | .string pieces => writeString pieces
  | .array [] => "[]".toList
  | .array items => '[' :: (prettyItems (depth + 1) items ++ newLine depth ++ [']'])
  | .object [] => ['{', '}']
  | .object members => '{' :: (prettyMembers (depth + 1) members ++ newLine depth ++ ['}'])

def prettyItems (depth : Nat) : List Value → List Char
  | [] => []
  | [item] => newLine depth ++ pretty depth item
  | item :: rest => newLine depth ++ pretty depth item ++ ',' :: prettyItems depth rest

def prettyMembers (depth : Nat) : List (List Piece × Value) → List Char
  | [] => []
  | [(key, value)] => newLine depth ++ writeString key ++ ": ".toList ++ pretty depth value
  | (key, value) :: rest =>
    newLine depth ++ writeString key ++ ": ".toList ++ pretty depth value ++
      ',' :: prettyMembers depth rest

end

def Value.compact (value : Value) : String := String.ofList (Json.compact value)

def Value.pretty (value : Value) : String := String.ofList (Json.pretty 0 value)

end BuildIdCache.Json
