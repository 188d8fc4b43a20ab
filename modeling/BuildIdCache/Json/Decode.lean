import BuildIdCache.Json.Value

set_option autoImplicit false

namespace BuildIdCache.Json

def isHighUnit (code : Nat) : Bool := 0xD800 ≤ code && code < 0xDC00

def isLowUnit (code : Nat) : Bool := 0xDC00 ≤ code && code < 0xE000

def chars? : List Piece → Option (List Char)
  | [] => some []
  | .char c :: rest => (chars? rest).map (c :: ·)
  | .unit high :: .unit low :: rest =>
    if isHighUnit high && isLowUnit low then
      let code := 0x10000 + (high - 0xD800) * 0x400 + (low - 0xDC00)
      (chars? rest).map (Char.ofNat code :: ·)
    else if isHighUnit high || isLowUnit high then none
    else (chars? (.unit low :: rest)).map (Char.ofNat high :: ·)
  | .unit code :: rest =>
    if isHighUnit code || isLowUnit code then none
    else (chars? rest).map (Char.ofNat code :: ·)

def text? (pieces : List Piece) : Option String := (chars? pieces).map String.ofList

def digitsValue (digits : List Char) : Nat :=
  digits.foldl (fun n c => n * 10 + (c.toNat - '0'.toNat)) 0

namespace Value

def string? : Value → Option String
  | .string pieces => text? pieces
  | _ => none

def bool? : Value → Option Bool
  | .bool b => some b
  | _ => none

def integerLimit : Nat := 0x10000000000000000

def nat? : Value → Option Nat
  | .number text =>
    let n := digitsValue text
    if Lexer.isDigits text ∧ n < integerLimit then some n else none
  | _ => none

def list? {α : Type} (item? : Value → Option α) : Value → Option (List α)
  | .array items => items.mapM item?
  | _ => none

def optional? {α : Type} (item? : Value → Option α) : Value → Option (Option α)
  | .null => some none
  | value => (item? value).map some

def members? : Value → Option (List (String × Value))
  | .object members => members.mapM fun m => (text? m.1).map fun key => (key, m.2)
  | _ => none

def alternative? : Value → Option String
  | .string pieces => text? pieces
  | .object [(key, .null)] => text? key
  | _ => none

def field? (members : List (String × Value)) (name : String) : Option (Option Value) :=
  match members.filter fun m => m.1 = name with
  | [] => some none
  | [(_, value)] => some (some value)
  | _ => none

def fields? (names : List String) : Value → Option (List (Option Value))
  | .array items =>
    if items.length ≤ names.length then
      some (items.map some ++ List.replicate (names.length - items.length) none)
    else none
  | value => do
    let members ← value.members?
    names.mapM (field? members)

end Value

end BuildIdCache.Json
