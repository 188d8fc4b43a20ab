import BuildIdCache.Elf.Inspector
import BuildIdCache.Proofs.BuildId
import BuildIdCache.Proofs.Inspector

set_option autoImplicit false

namespace BuildIdCache.Elf

open BuildId

section

variable {format : Format} {content : ByteArray}

inductive Laid (format : Format) (content : ByteArray) (alignment limit : Nat) :
    Nat → List Note → Prop
  | done {offset : Nat} (past : limit ≤ offset) : Laid format content alignment limit offset []
  | note {offset size : Nat} {note : Note} {rest : List Note} (within : offset < limit)
      (read : readNote? format content alignment offset = some (note, size))
      (further : Laid format content alignment limit (offset + size) rest) :
      Laid format content alignment limit offset (note :: rest)

theorem notesFrom_of_laid {alignment limit offset : Nat} {notes : List Note}
    (laid : Laid format content alignment limit offset notes) :
    notesFrom format content alignment limit offset = (notes, true) := by
  induction laid with
  | done past => rw [notesFrom, if_neg (Nat.not_lt.2 past)]
  | note within read further ih =>
    rw [notesFrom, if_pos within]
    split
    next none => simp [read] at none
    next note size same =>
      obtain ⟨rfl, rfl⟩ : _ = note ∧ _ = size := by simpa [read] using same
      rw [ih]

theorem laid_of_notesFrom {alignment limit offset : Nat} {notes : List Note}
    (complete : notesFrom format content alignment limit offset = (notes, true)) :
    Laid format content alignment limit offset notes := by
  fun_induction notesFrom format content alignment limit offset generalizing notes with
  | case1 offset within unread => simp at complete
  | case2 offset within note size read positive rest flag same ih =>
    obtain ⟨rfl, rfl⟩ : note :: rest = notes ∧ flag = true := by simpa using complete
    exact .note within read (ih same)
  | case3 offset past =>
    obtain rfl : [] = notes := by simpa using complete
    exact .done (Nat.not_lt.1 past)

/-- All of a range can be read, and these are its notes. Without a known alignment only an empty
range can be read. -/
def NoteRange.Holds (format : Format) (content : ByteArray) (range : NoteRange)
    (notes : List Note) : Prop :=
  match noteAlignment? range.alignment with
  | some alignment => Laid format content alignment range.limit range.offset notes
  | none => range.limit ≤ range.offset ∧ notes = []

theorem notesIn_eq_iff (range : NoteRange) (notes : List Note) :
    notesIn format content range = (notes, true) ↔ range.Holds format content notes := by
  unfold notesIn NoteRange.Holds
  cases noteAlignment? range.alignment with
  | some alignment => exact ⟨laid_of_notesFrom, notesFrom_of_laid⟩
  | none =>
    by_cases within : range.offset < range.limit
    · simp [within, Nat.not_le.2 within]
    · simp [within, Nat.not_lt.1 within, eq_comm]

theorem notesOf_of_holds {ranges : List NoteRange} {tables : List (List Note)}
    (hold : List.Forall₂ (NoteRange.Holds format content) ranges tables) :
    notesOf format content ranges = tables.flatten := by
  induction hold with
  | nil => rfl
  | cons holds further ih =>
    rw [notesOf, (notesIn_eq_iff _ _).2 holds]
    exact congrArg _ ih

end

def Image.noteRanges (image : Image) : List NoteRange :=
  match sectionRanges image with
  | [] => programRanges image
  | ranges => ranges

def Note.tellsBuildId (note : Note) : Bool := note.kind = buildIdKind && !note.descriptor.isEmpty

def gnu : List UInt8 := "GNU".toUTF8.toList

def Note.isGnuBuildId (note : Note) : Bool := note.owner = gnu && note.tellsBuildId

theorem Note.tellsBuildId_iff (note : Note) :
    note.tellsBuildId = true ↔ note.kind = buildIdKind ∧ note.descriptor ≠ [] := by
  simp [tellsBuildId]

def givenBy : Option Note → String
  | some note => normalForm note.descriptor
  | none => ""

theorem noteBuildId_eq (notes : List Note) :
    noteBuildId notes = givenBy (notes.find? Note.tellsBuildId) := by
  show (match notes.find? Note.tellsBuildId with
    | some note => ofDescriptor note.descriptor
    | none => "") = _
  cases found : notes.find? Note.tellsBuildId with
  | none => rfl
  | some note => exact ofDescriptor_eq (note.tellsBuildId_iff.1 (List.find?_some found)).2

theorem noteBuildId_append {earlier later : List Note} {note : Note}
    (kind : note.kind = buildIdKind) (more : note.descriptor ≠ [])
    (silent : ∀ other ∈ earlier, other.kind = buildIdKind → other.descriptor = []) :
    noteBuildId (earlier ++ note :: later) = normalForm note.descriptor := by
  have none : earlier.find? Note.tellsBuildId = none :=
    List.find?_eq_none.2 fun other member tells =>
    absurd (silent other member (other.tellsBuildId_iff.1 tells).1)
      (other.tellsBuildId_iff.1 tells).2
  have isFirst : note.tellsBuildId = true := note.tellsBuildId_iff.2 ⟨kind, more⟩
  rw [noteBuildId_eq, List.find?_append, none, Option.none_or, List.find?_cons_of_pos isFirst,
    givenBy]

theorem givenBy_eq_iff {notes : List Note} (owned : Note → Bool)
    (tells : ∀ note, owned note = true → note.tellsBuildId = true) :
    givenBy (notes.find? Note.tellsBuildId) = givenBy (notes.find? owned) ↔
      ∀ note, notes.find? Note.tellsBuildId = some note →
        ∃ own, notes.find? owned = some own ∧ told own.descriptor = told note.descriptor := by
  cases first : notes.find? Note.tellsBuildId with
  | none =>
    have none : notes.find? owned = none := List.find?_eq_none.2 fun note member isOwned =>
      List.find?_eq_none.1 first note member (tells note isOwned)
    simp [none]
  | some note =>
    cases own : notes.find? owned with
    | none => simp [givenBy, normalForm_ne_empty]
    | some own => simp [givenBy, normalForm_inj, eq_comm]

theorem buildId_of_holds {content : ByteArray} {image : Image} {tables : List (List Note)}
    (parsed : Image.parse? content = some image)
    (hold : List.Forall₂ (NoteRange.Holds image.format content) image.noteRanges tables) :
    buildId content = givenBy (tables.flatten.find? Note.tellsBuildId) := by
  have laid : image.notes content = tables.flatten := notesOf_of_holds hold
  simp only [buildId, parsed, laid, noteBuildId_eq]

variable {σ : Type}

theorem inspector_buildId {world : World σ} {path : Path} {content : ByteArray}
    (read : world.files.read path = .ok content) :
    inspector.buildId path world = (buildId content, world) := by
  have answered :=
    ((Inspector.ofContent_reads inspectorName ⟨buildId, sectionNames⟩).buildId path world).1
  have quiet := Inspector.ofContent_quiet inspectorName buildId sectionNames path world
  exact Prod.ext (answered.trans (Reading.buildIdAt_of_read _ _ _ content read)) quiet

/-- The build-id of a file whose notes can all be read is that of the first note of the build-id
kind with a descriptor, whoever owns it. It is the GNU build-id exactly where that note, if there is
one, tells the same as the first of these notes that GNU owns. -/
theorem inspector_first_note {world : World σ} {path : Path} {content : ByteArray} {image : Image}
    {tables : List (List Note)} (read : world.files.read path = .ok content)
    (parsed : Image.parse? content = some image)
    (hold : List.Forall₂ (NoteRange.Holds image.format content) image.noteRanges tables) :
    let notes := tables.flatten
    let answer := givenBy (notes.find? Note.tellsBuildId)
    inspector.buildId path world = (answer, world) ∧
      (answer = givenBy (notes.find? Note.isGnuBuildId) ↔
        ∀ note, notes.find? Note.tellsBuildId = some note →
          ∃ own, notes.find? Note.isGnuBuildId = some own ∧
            told own.descriptor = told note.descriptor) := by
  intro notes answer
  have tells : ∀ note, Note.isGnuBuildId note = true → note.tellsBuildId = true := by
    intro note owned
    exact (Bool.and_eq_true_iff.1 owned).2
  refine ⟨?_, givenBy_eq_iff Note.isGnuBuildId tells⟩
  rw [inspector_buildId read, buildId_of_holds parsed hold]

namespace Sample

def foreignFirst : ByteArray := ⟨#[
  0x7F, 0x45, 0x4C, 0x46, 1, 1, 1, 0, 0, 0, 0, 0, 0, 0, 0, 0,
  3, 0, 40, 0, 1, 0, 0, 0, 0, 0, 0, 0, 52, 0, 0, 0, 0, 0, 0, 0, 0, 0, 0, 0,
  52, 0, 32, 0, 1, 0, 40, 0, 0, 0, 0, 0,
  4, 0, 0, 0, 84, 0, 0, 0, 0, 0, 0, 0, 0, 0, 0, 0, 44, 0, 0, 0, 44, 0, 0, 0, 4, 0, 0, 0, 4, 0, 0, 0,
  8, 0, 0, 0, 4, 0, 0, 0, 3, 0, 0, 0, 0x73, 0x74, 0x61, 0x70, 0x73, 0x64, 0x74, 0,
  0x11, 0x11, 0x11, 0x11,
  4, 0, 0, 0, 4, 0, 0, 0, 3, 0, 0, 0, 0x47, 0x4E, 0x55, 0, 0x22, 0x22, 0x22, 0x22]⟩

def image : Image := ⟨⟨.little, false⟩, [⟨4, 84, 0, 44, 44, 4⟩], [], .empty⟩

def foreignNote : Note := ⟨"stapsdt".toUTF8.toList, buildIdKind, [0x11, 0x11, 0x11, 0x11]⟩

def ownNote : Note := ⟨gnu, buildIdKind, [0x22, 0x22, 0x22, 0x22]⟩

theorem parsed : Image.parse? foreignFirst = some image := by cbv

def notes : List Note := [foreignNote, ownNote]

theorem holds :
    List.Forall₂ (NoteRange.Holds image.format foreignFirst) image.noteRanges [notes] := by
  have first : readNote? image.format foreignFirst 4 84 = some (foreignNote, 24) := by
    decide +kernel
  have second : readNote? image.format foreignFirst 4 108 = some (ownNote, 20) := by decide +kernel
  exact .cons (.note (by decide) first (.note (by decide) second (.done (by decide)))) .nil

theorem first : [notes].flatten.find? Note.tellsBuildId = some foreignNote := by decide +kernel

theorem firstOwn : [notes].flatten.find? Note.isGnuBuildId = some ownNote := by decide +kernel

def fileName : Name := ⟨[0x65], by decide⟩

def world : World Unit := ⟨FileSystem.empty.put [] fileName (.file foreignFirst), ()⟩

theorem read : world.files.read (.ofString "e") = .ok foreignFirst := by cbv

end Sample

theorem inspector_first_note_sample :
    inspector.buildId (.ofString "e") Sample.world =
        (givenBy (some Sample.foreignNote), Sample.world) ∧
      givenBy (some Sample.foreignNote) ≠ givenBy (some Sample.ownNote) := by
  have decided := inspector_first_note Sample.read Sample.parsed Sample.holds
  simp only [Sample.first, Sample.firstOwn] at decided
  refine ⟨decided.1, fun same => ?_⟩
  obtain ⟨own, isOwn, agree⟩ := decided.2.1 same _ rfl
  obtain rfl := Option.some.inj isOwn
  exact absurd agree (by decide)

-- The note of another owner is taken for the build-id.
theorem foreign_note_taken :
    Sample.world.files.read (.ofString "e") = .ok Sample.foreignFirst ∧
      Image.parse? Sample.foreignFirst = some Sample.image ∧
      List.Forall₂ (NoteRange.Holds Sample.image.format Sample.foreignFirst) Sample.image.noteRanges
        [Sample.notes] ∧
      [Sample.notes].flatten.find? Note.isGnuBuildId = some Sample.ownNote ∧
      inspector.buildId (.ofString "e") Sample.world ≠
        (normalForm Sample.ownNote.descriptor, Sample.world) := by
  refine ⟨Sample.read, Sample.parsed, Sample.holds, Sample.firstOwn, fun same => ?_⟩
  rw [inspector_buildId Sample.read, buildId_of_holds Sample.parsed Sample.holds, Sample.first]
    at same
  have agree := (normalForm_inj _ _).1 (congrArg Prod.fst same)
  exact absurd agree (by decide)

end BuildIdCache.Elf
