import BuildIdCache.BuildId
import BuildIdCache.Elf.Image

set_option autoImplicit false

namespace BuildIdCache.Elf

structure Note where
  owner : List UInt8
  kind : Nat
  descriptor : List UInt8
deriving DecidableEq

def noteHeaderSize : Nat := 12

def alignUp (alignment n : Nat) : Nat := (n + (alignment - 1)) / alignment * alignment

-- Less than four bytes of alignment count as four; beyond that only eight is known.
def noteAlignment? (alignment : Nat) : Option Nat :=
  if alignment ≤ 4 then some 4 else if alignment = 8 then some 8 else none

-- A note and how many bytes it takes. The owner ends with a zero byte that is not part of it.
def readNote? (format : Format) (content : ByteArray) (alignment offset : Nat) :
    Option (Note × Nat) := do
  match ← format.numbers? content offset [4, 4, 4] with
  | [ownerSize, descriptorSize, kind] =>
    let owner ← slice? content (offset + noteHeaderSize) (ownerSize - 1)
    if !(String.fromUTF8? ⟨owner.toArray⟩).isSome then none
    let start := alignUp alignment (noteHeaderSize + ownerSize)
    let descriptor ← slice? content (offset + start) descriptorSize
    return (⟨owner, kind, descriptor⟩, max noteHeaderSize
      (alignUp alignment (start + descriptorSize)))
  | _ => none

structure NoteRange where
  offset : Nat
  limit : Nat
  alignment : Nat

theorem readNote?_size {format : Format} {content : ByteArray} {alignment offset : Nat}
    {note : Note} {size : Nat}
    (h : readNote? format content alignment offset = some (note, size)) : 0 < size := by
  unfold readNote? at h
  simp only [Option.bind_eq_bind, Option.bind_eq_some_iff] at h
  obtain ⟨fields, _, h⟩ := h
  split at h
  next =>
    simp only [Option.bind_eq_some_iff] at h
    obtain ⟨owner, _, h⟩ := h
    split at h
    · simp at h
    · simp only [Option.bind_eq_some_iff] at h
      obtain ⟨descriptor, _, h⟩ := h
      simp only [pure, Option.some.injEq, Prod.mk.injEq] at h
      rw [← h.2]
      exact Nat.lt_of_lt_of_le (by decide : 0 < noteHeaderSize) (Nat.le_max_left _ _)
  next => simp at h

def notesFrom (format : Format) (content : ByteArray) (alignment limit offset : Nat) :
    List Note × Bool :=
  if offset < limit then
    match h : readNote? format content alignment offset with
    | none => ([], false)
    | some (note, size) =>
      have := readNote?_size h
      let (notes, complete) := notesFrom format content alignment limit (offset + size)
      (note :: notes, complete)
  else ([], true)
termination_by limit - offset

def notesIn (format : Format) (content : ByteArray) (range : NoteRange) : List Note × Bool :=
  match noteAlignment? range.alignment with
  | some alignment => notesFrom format content alignment range.limit range.offset
  | none => if range.offset < range.limit then ([], false) else ([], true)

def notesOf (format : Format) (content : ByteArray) : List NoteRange → List Note
  | [] => []
  | range :: rest =>
    match notesIn format content range with
    | (notes, true) => notes ++ notesOf format content rest
    | (notes, false) => notes

def sectionRanges (image : Image) : List NoteRange :=
  (image.sections.filter fun header => header.kind = sectionNote).map fun header =>
    ⟨header.offset, header.offset + header.size, header.alignment⟩

def programRanges (image : Image) : List NoteRange :=
  (image.programs.filter fun header => header.kind = programNote).map fun header =>
    ⟨header.offset, header.offset + header.fileSize, header.alignment⟩

def Image.notes (image : Image) (content : ByteArray) : List Note :=
  let ranges := match sectionRanges image with
    | [] => programRanges image
    | ranges => ranges
  notesOf image.format content ranges

def buildIdKind : Nat := 3

/-- The first note of the build-id kind that says something, whoever owns it. -/
def noteBuildId (notes : List Note) : String :=
  match notes.find? fun note => note.kind = buildIdKind && !note.descriptor.isEmpty with
  | some note => BuildId.ofDescriptor note.descriptor
  | none => ""

end BuildIdCache.Elf
