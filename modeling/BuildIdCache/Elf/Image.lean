import BuildIdCache.Elf.Dynamic
import BuildIdCache.SortedMap

set_option autoImplicit false

namespace BuildIdCache.Elf

def sectionSymbols : Nat := 2
def sectionRelocationsWithAddend : Nat := 4
def sectionNote : Nat := 7
def sectionNoBits : Nat := 8
def sectionRelocations : Nat := 9
def sectionVersions : List Nat := [0x6FFFFFFF, 0x6FFFFFFD, 0x6FFFFFFE]

def extendedIndex : Nat := 0xFFFF

structure Image where
  format : Format
  programs : List ProgramHeader
  sections : List SectionHeader
  names : ByteArray

def SectionHeader.fits (header : SectionHeader) (content : ByteArray) : Bool :=
  header.kind = sectionNoBits || header.size = 0 ||
    (header.offset + header.size ≤ content.size && header.address + header.size < wordLimit)

def sectionText? (content : ByteArray) (sections : List SectionHeader) (index : Nat) :
    Option ByteArray :=
  let index :=
    if index = extendedIndex then (sections.head?.map (·.link)).getD sections.length else index
  match sections[index]? with
  | none => some ByteArray.empty
  | some header =>
    if header.fits content then readNames? content header.offset header.size else none

def symbolTableReadable (format : Format) (content : ByteArray) (sections : List SectionHeader) :
    Option Unit := do
  match sections.reverse.find? fun header => header.kind = sectionSymbols with
  | none => return ()
  | some header =>
    let count := if header.entrySize = 0 then 0 else header.size / header.entrySize
    if symbolsReadable format content header.offset count then
      let _ ← sectionText? content sections header.link
      return ()
    else none

def relocationsReadable (content : ByteArray) (header : SectionHeader) : Bool :=
  if header.kind = sectionRelocations ∨ header.kind = sectionRelocationsWithAddend then
    header.fits content &&
      (header.size = 0 || (slice? content header.offset header.size).isSome)
  else true

def versionsReadable (content : ByteArray) (sections : List SectionHeader) (kind : Nat) : Bool :=
  match sections.find? fun header => header.kind = kind with
  | none => true
  | some header => (slice? content header.offset header.size).isSome

def Image.parse? (content : ByteArray) : Option Image := do
  let format ← Format.ofIdent? content
  let header ← Header.read? format content
  let programs ← readPrograms? format content header
  let sections ← readSections? format content header
  let names ← sectionText? content sections header.nameSection
  symbolTableReadable format content sections
  dynamicReadable format content header.machine programs
  if sections.all (relocationsReadable content) &&
      sectionVersions.all (versionsReadable content sections) then
    return { format, programs, sections, names }
  else none

def nameAt? (names : ByteArray) (offset : Nat) : Option String :=
  let rest := (names.extract offset names.size).data.toList
  String.fromUTF8? ⟨(rest.takeWhile (· ≠ 0)).toArray⟩

def namesOf (sections : List SectionHeader) (names : ByteArray) : List String :=
  let found := sections.filterMap fun header => nameAt? names header.name
  (SortedMap.ofList ((found.filter fun name => !name.isEmpty).map fun name => (name, ()))).keys

end BuildIdCache.Elf
