import BuildIdCache.BuildId
import BuildIdCache.SortedMap
import BuildIdCache.Text.Lines

set_option autoImplicit false

namespace BuildIdCache.Readelf

open Text

def lineBuildId? (line : List Char) : Option (List Char) := do
  let rest ← afterFirst? "Build ID:".toList line
  let word ← firstWord? rest
  return BuildId.normalizeChars word

def buildId (output : String) : String :=
  match (lines output.toList).findSome? lineBuildId? with
  | some id => String.ofList id
  | none => ""

def digitValue? (c : Char) : Option Nat :=
  if '0' ≤ c ∧ c ≤ '9' then some (c.toNat - '0'.toNat) else none

def decimal? (digits : List Char) : Option Nat :=
  digits.foldlM (fun n c => (digitValue? c).map (n * 10 + ·)) 0

def rowLimit : Nat := 0x100000000

def isRowIndex (text : List Char) : Bool :=
  let digits := match text with
    | '+' :: rest => rest
    | text => text
  !digits.isEmpty && (decimal? digits).any (· < rowLimit)

-- One blank parts the bracket from the name; a second one says that there is no name.
def nameAfterBracket? : List Char → Option (List Char)
  | blank :: c :: rest =>
    if isBlank blank && !isBlank c then firstWord? (c :: rest) else none
  | _ => none

def rowName? (line : List Char) : Option (List Char) := do
  let inner ← after? ['['] (trimStart line)
  let (index, rest) ← cut? ']' inner
  if isRowIndex (trim index) then nameAfterBracket? rest else none

def sectionNames (output : String) : List String :=
  let names := (lines output.toList).filterMap rowName?
  (SortedMap.ofList (names.map fun name => (String.ofList name, ()))).keys

end BuildIdCache.Readelf
