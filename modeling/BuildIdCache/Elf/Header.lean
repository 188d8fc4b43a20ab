import BuildIdCache.Elf.Magic
import BuildIdCache.Elf.Bytes

set_option autoImplicit false

namespace BuildIdCache.Elf

def identSize : Nat := 16

def wideOf? (b : UInt8) : Option Bool :=
  if b = 1 then some false else if b = 2 then some true else none

def orderOf? (b : UInt8) : Option ByteOrder :=
  if b = 1 then some .little else if b = 2 then some .big else none

def Format.ofIdent? (content : ByteArray) : Option Format := do
  let ident ← slice? content 0 identSize
  let rest ← if magic.isPrefixOf ident then some (ident.drop magic.length) else none
  match rest with
  | cls :: order :: _ => return ⟨← orderOf? order, ← wideOf? cls⟩
  | _ => none

structure Header where
  machine : Nat
  programTable : Nat
  sectionTable : Nat
  programCount : Nat
  sectionCount : Nat
  nameSection : Nat

def Header.read? (format : Format) (content : ByteArray) : Option Header := do
  let w := format.word
  let fields ← format.numbers? content identSize [2, 2, 4, w, w, w, 4, 2, 2, 2, 2, 2, 2]
  match fields with
  | [_, machine, _, _, programTable, sectionTable, _, _, _, programCount, _, sectionCount,
      nameSection] =>
    return { machine, programTable, sectionTable, programCount, sectionCount, nameSection }
  | _ => none

structure ProgramHeader where
  kind : Nat
  offset : Nat
  address : Nat
  fileSize : Nat
  memorySize : Nat
  alignment : Nat

namespace ProgramHeader

def width (format : Format) : Nat := if format.wide then 56 else 32

def read? (format : Format) (content : ByteArray) (offset : Nat) : Option ProgramHeader := do
  if format.wide then
    match ← format.numbers? content offset [4, 4, 8, 8, 8, 8, 8, 8] with
    | [kind, _, offset, address, _, fileSize, memorySize, alignment] =>
      return { kind, offset, address, fileSize, memorySize, alignment }
    | _ => none
  else
    match ← format.numbers? content offset [4, 4, 4, 4, 4, 4, 4, 4] with
    | [kind, offset, address, _, fileSize, memorySize, _, alignment] =>
      return { kind, offset, address, fileSize, memorySize, alignment }
    | _ => none

end ProgramHeader

structure SectionHeader where
  name : Nat
  kind : Nat
  address : Nat
  offset : Nat
  size : Nat
  link : Nat
  alignment : Nat
  entrySize : Nat

namespace SectionHeader

def width (format : Format) : Nat := if format.wide then 64 else 40

def read? (format : Format) (content : ByteArray) (offset : Nat) : Option SectionHeader := do
  let w := format.word
  match ← format.numbers? content offset [4, 4, w, w, w, w, 4, 4, w, w] with
  | [name, kind, _, address, offset, size, link, _, alignment, entrySize] =>
    return { name, kind, address, offset, size, link, alignment, entrySize }
  | _ => none

end SectionHeader

def readTable {α : Type} (content : ByteArray) (size offset count : Nat)
    (read : Nat → Option α) : Option (List α) :=
  if count * size ≤ content.size then
    (List.range count).mapM fun i => read (offset + i * size)
  else none

def readPrograms? (format : Format) (content : ByteArray) (header : Header) :
    Option (List ProgramHeader) :=
  readTable content (ProgramHeader.width format) header.programTable header.programCount
    (ProgramHeader.read? format content)

-- No table stands at offset zero. A count of zero says that the first header holds the count.
def readSections? (format : Format) (content : ByteArray) (header : Header) :
    Option (List SectionHeader) := do
  if header.sectionTable = 0 then return []
  let first ← SectionHeader.read? format content header.sectionTable
  let count := if header.sectionCount = 0 then first.size else header.sectionCount
  let size := SectionHeader.width format
  if content.size < count * size then none
  let more ← readTable content size (header.sectionTable + size) (count - 1)
    (SectionHeader.read? format content)
  return first :: more

end BuildIdCache.Elf
