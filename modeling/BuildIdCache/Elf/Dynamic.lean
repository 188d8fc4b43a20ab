import BuildIdCache.Elf.Header

set_option autoImplicit false

namespace BuildIdCache.Elf

def programLoad : Nat := 1
def programDynamic : Nat := 2
def programNote : Nat := 4

def readNames? (content : ByteArray) (offset size : Nat) : Option ByteArray :=
  if offset + size ≤ content.size then
    let names := content.extract offset (offset + size)
    if (String.fromUTF8? names).isSome then some names else none
  else none

def symbolSize (format : Format) : Nat := if format.wide then 24 else 16

def symbolsReadable (format : Format) (content : ByteArray) (offset count : Nat) : Bool :=
  (slice? content offset (count * symbolSize format)).isSome

def relocationSize (format : Format) (withAddend : Bool) : Nat :=
  (if withAddend then 3 else 2) * format.word

def greatestSymbol? (format : Format) (content : ByteArray) (offset size : Nat)
    (withAddend : Bool) : Option Nat := do
  if size = 0 then return 0
  let _ ← slice? content offset size
  let step := relocationSize format withAddend
  let infos ← (List.range (size / step)).mapM fun i =>
    format.number? content (offset + i * step + format.word) format.word
  let symbols := infos.map fun info => if format.wide then info >>> 32 else info >>> 8
  return symbols.foldl max 0

structure DynamicEntry where
  tag : Nat
  value : Nat

def readDynamic? (format : Format) (content : ByteArray) (program : ProgramHeader) :
    Option (List DynamicEntry) := do
  if program.fileSize = 0 then return []
  let _ ← slice? content program.offset program.fileSize
  let w := format.word
  let all ← (List.range (program.fileSize / (2 * w))).mapM fun i => do
    let tag ← format.number? content (program.offset + i * (2 * w)) w
    let value ← format.number? content (program.offset + i * (2 * w) + w) w
    return DynamicEntry.mk tag value
  return all.takeWhile fun entry => entry.tag ≠ 0

def fileOffset? (programs : List ProgramHeader) (address : Nat) : Option Nat := do
  let program ← programs.find? fun program =>
    program.kind = programLoad && program.address ≤ address &&
      address - program.address < program.memorySize
  let offset := program.offset + (address - program.address)
  if offset < wordLimit then return offset else none

def lastValue? (entries : List DynamicEntry) (tag : Nat) : Option Nat :=
  (entries.reverse.find? fun entry => entry.tag = tag).map (·.value)

def chainEnd? (format : Format) (content : ByteArray) (offset count : Nat) : Option Nat :=
  if offset < content.size then
    match format.number? content offset 4 with
    | none => none
    | some hash =>
      if hash % 2 = 1 then some (count + 1) else chainEnd? format content (offset + 4) (count + 1)
  else none
termination_by content.size - offset

def bucketSymbols? (format : Format) (content : ByteArray) (offset : Nat) : Option Nat := do
  match ← format.numbers? content offset [4, 4, 4] with
  | [buckets, least, bloom] =>
    if buckets = 0 ∨ least = 0 ∨ bloom = 0 then none
    let first := offset + 16 + bloom * format.word
    if content.size < first + 4 * buckets then none
    let chains ← (List.range buckets).mapM fun i => format.number? content (first + 4 * i) 4
    let greatest := chains.foldl max 0
    if greatest < least then return 0
    else chainEnd? format content (first + 4 * buckets + 4 * (greatest - least)) greatest
  | _ => none

-- On two machines the plain hash table has words of eight bytes.
def plainSymbols? (format : Format) (content : ByteArray) (machine offset : Nat) : Option Nat :=
  let width := if format.wide ∧ (machine = 0x9026 ∨ machine = 22) then 8 else 4
  format.number? content (offset + 4) width

def dynamicReadable (format : Format) (content : ByteArray) (machine : Nat)
    (programs : List ProgramHeader) : Option Unit := do
  match programs.find? fun program => program.kind = programDynamic with
  | none => return ()
  | some program =>
    let entries ← readDynamic? format content program
    let value (tag : Nat) : Nat := (lastValue? entries tag).getD 0
    let place? (tag : Nat) : Option Nat := (lastValue? entries tag).bind (fileOffset? programs)
    let place (tag : Nat) : Nat := (place? tag).getD 0
    let _ ← readNames? content (place 5) (value 10)
    let withAddend ← greatestSymbol? format content (place 7) (value 8) true
    let plain ← greatestSymbol? format content (place 17) (value 18) false
    let linkage ← greatestSymbol? format content (place 23) (value 2) (value 20 = 7)
    let counted ← match place? 0x6FFFFEF5, place? 4 with
      | some offset, _ => bucketSymbols? format content offset
      | none, some offset => plainSymbols? format content machine offset
      | none, none => some 0
    let used := max withAddend (max plain linkage)
    let count := if used = 0 then counted else max counted (used + 1)
    if symbolsReadable format content (place 6) count then return () else none

end BuildIdCache.Elf
