import BuildIdCache.Text.Blank

set_option autoImplicit false

namespace BuildIdCache.BuildId

open Text

def digitCount : Nat := 40

def dropHexMark : List Char → List Char
  | '0' :: 'x' :: rest => rest
  | '0' :: 'X' :: rest => rest
  | s => s

def byteLength (s : List Char) : Nat := s.foldr (fun c n => c.utf8Size + n) 0

-- Cuts by characters and fills by bytes: the two agree on digits.
def fit (digits : List Char) : List Char :=
  let cut := digits.take digitCount
  cut ++ List.replicate (digitCount - byteLength cut) '0'

def normalizeChars (raw : List Char) : List Char :=
  match (dropHexMark (trim raw)).map Char.toLower with
  | [] => []
  | digits => '0' :: 'x' :: fit digits

/-- The normal form is "0x" and forty lower-case digits; the empty text stands for "unknown". -/
def normalize (raw : String) : String := String.ofList (normalizeChars raw.toList)

def hexDigit (n : Nat) : Char :=
  if n < 10 then Char.ofNat ('0'.toNat + n) else Char.ofNat ('a'.toNat + (n - 10))

def hexChars (bytes : List UInt8) : List Char :=
  bytes.flatMap fun b => [hexDigit (b.toNat / 16), hexDigit (b.toNat % 16)]

def ofDescriptor (descriptor : List UInt8) : String :=
  String.ofList (normalizeChars (hexChars descriptor))

end BuildIdCache.BuildId
