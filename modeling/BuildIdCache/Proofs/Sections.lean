import Mathlib
import BuildIdCache.Elf.Inspector
import BuildIdCache.Proofs.Readelf.Rows
import BuildIdCache.Proofs.Stripping
import BuildIdCache.Proofs.Text.Utf8
import BuildIdCache.Proofs.World
import BuildIdCache.Readelf.Inspector

set_option autoImplicit false

namespace BuildIdCache

open Text

namespace Elf

deriving instance DecidableEq for ProgramHeader, SectionHeader, Image

def Named (names : ByteArray) (header : SectionHeader) (name : String) : Prop :=
  ∃ front back, names.data.toList = front ++ (encode name.toList ++ 0 :: back) ∧
    front.length = header.name ∧ 0 ∉ encode name.toList

theorem Named.nameAt? {names : ByteArray} {header : SectionHeader} {name : String}
    (named : Named names header name) : nameAt? names header.name = some name := by
  obtain ⟨front, back, bytes, place, clear⟩ := named
  have behind : (names.extract header.name names.size).data.toList =
      encode name.toList ++ 0 :: back := by
    rw [ByteArray.data_extract, Array.toList_extract, List.extract,
      List.take_of_length_le (by simp), bytes, ← place, List.drop_left]
  have word : (encode name.toList ++ 0 :: back).takeWhile (· ≠ 0) = encode name.toList := by
    rw [List.takeWhile_append_of_pos]
    · simp
    · intro b member
      have other : b ≠ 0 := fun zero => clear (zero ▸ member)
      simpa using other
  rw [Elf.nameAt?, behind, word, fromUTF8?_encode, String.ofList_toList]

theorem filterMap_nameAt? {names : ByteArray} {sections : List SectionHeader} {listed : List String}
    (named : List.Forall₂ (Named names) sections listed) :
    (sections.filterMap fun header => nameAt? names header.name) = listed := by
  induction named with
  | nil => rfl
  | cons here further ih => rw [List.filterMap_cons, here.nameAt?, ih]

theorem mem_sectionNames {content : ByteArray} {image : Image} {listed : List String}
    (parsed : Image.parse? content = some image)
    (named : List.Forall₂ (Named image.names) image.sections listed) (name : String) :
    name ∈ sectionNames content ↔ name ∈ listed ∧ name ≠ "" := by
  rw [sectionNames, parsed]
  simp only [namesOf, filterMap_nameAt? named, SortedMap.mem_keys_ofList, List.map_map]
  simp

theorem inspector_sections {σ : Type} {world : World σ} {path : Path} {content : ByteArray}
    (read : world.files.read path = .ok content) :
    inspector.sections path world = (sectionNames content, world) := by
  have files : (Effect.files : Effect σ FileSystem) world = (world.files, world) := rfl
  simp only [inspector, Inspector.ofContent, Effect.bind_apply, files, read]
  rfl

end Elf

variable {σ : Type}

theorem Inspector.level_of_sections {inspector : Inspector σ} {path : Path} {world after : World σ}
    {sections : List String} (found : inspector.sections path world = (sections, after)) :
    inspector.level path world = (.ofSections sections, after) := by
  rw [Inspector.level, Effect.bind_apply, found]
  rfl

theorem Readelf.inspector_sections {tools : Tools σ} {program path : Path} {world after : World σ}
    {output : String} (printed : output? tools program "-SW" path world = (some output, after)) :
    (inspector tools program).sections path world = (sectionNames output, after) := by
  simp only [inspector, Effect.bind_apply, printed]
  rfl

theorem sections_agree {names : List String} {laid : List (List Char)} {output : String}
    (table : Readelf.Table names laid) (laidOut : LaidOut laid output.toList) :
    (∀ name, name ∈ Readelf.sectionNames output ↔ name ∈ names ∧ name ≠ "") ∧
      (Readelf.sectionNames output).Nodup ∧
      (∀ (world : World σ) path content image listed, world.files.read path = .ok content →
        Elf.Image.parse? content = some image →
        List.Forall₂ (Elf.Named image.names) image.sections listed →
        (∀ name, name ∈ listed ↔ name ∈ names) →
        Elf.inspector.sections path world = (Readelf.sectionNames output, world) ∧
          Elf.inspector.level path world =
            (.ofSections (Readelf.sectionNames output), world)) ∧
      (∀ (tools : Tools σ) program path world after,
        Readelf.output? tools program "-SW" path world = (some output, after) →
        (Readelf.inspector tools program).level path world =
          (.ofSections (Readelf.sectionNames output), after)) ∧
      ∀ sections : List String, (∀ name, name ∈ sections ↔ name ∈ names ∧ name ≠ "") →
        StrippedLevel.ofSections sections = .scan .stripped sections ∧
          (StrippedLevel.ofSections sections = .lineInfo ↔ ".debug_line" ∈ names) ∧
          (StrippedLevel.ofSections sections = .symbolTable ↔
            ".debug_line" ∉ names ∧ ".symtab" ∈ names) ∧
          (StrippedLevel.ofSections sections = .stripped ↔
            ".debug_line" ∉ names ∧ ".symtab" ∉ names) ∧
          ∀ more, sections ⊆ more →
            StrippedLevel.ofSections more ≤ StrippedLevel.ofSections sections := by
  refine ⟨Readelf.mem_sectionNames table laidOut, SortedMap.nodup_keys _, ?_, ?_, ?_⟩
  · intro world path content image listed read parsed named same
    have members :
      ∀ name, name ∈ Elf.sectionNames content ↔ name ∈ Readelf.sectionNames output := by
      intro name
      rw [Elf.mem_sectionNames parsed named, same, Readelf.mem_sectionNames table laidOut]
    have found : Elf.sectionNames content = Readelf.sectionNames output := by
      rw [Elf.sectionNames, parsed] at members ⊢
      exact SortedMap.keys_eq members
    have sections : Elf.inspector.sections path world = (Readelf.sectionNames output, world) := by
      rw [Elf.inspector_sections read, found]
    exact ⟨sections, Inspector.level_of_sections sections⟩
  · intro tools program path world after printed
    exact Inspector.level_of_sections (Readelf.inspector_sections printed)
  · intro sections enumerates
    have line : ".debug_line" ∈ sections ↔ ".debug_line" ∈ names := by simp [enumerates]
    have symbols : ".symtab" ∈ sections ↔ ".symtab" ∈ names := by simp [enumerates]
    refine ⟨StrippedLevel.ofSections_eq_scan sections, ?_, ?_, ?_, fun _ =>
      StrippedLevel.ofSections_le⟩
    · rw [StrippedLevel.ofSections_eq_lineInfo, line]
    · rw [StrippedLevel.ofSections_eq_symbolTable, line, symbols]
    · rw [StrippedLevel.ofSections_eq_stripped, line, symbols]

namespace Sample

def twoSections : ByteArray := ⟨#[
  0x7F, 0x45, 0x4C, 0x46, 1, 1, 1, 0, 0, 0, 0, 0, 0, 0, 0, 0,
  3, 0, 40, 0, 1, 0, 0, 0, 0, 0, 0, 0, 0, 0, 0, 0, 52, 0, 0, 0,
  0, 0, 0, 0, 52, 0, 32, 0, 0, 0, 40, 0, 2, 0, 1, 0,
  0, 0, 0, 0, 0, 0, 0, 0, 0, 0, 0, 0, 0, 0, 0, 0, 0, 0, 0, 0,
  0, 0, 0, 0, 0, 0, 0, 0, 0, 0, 0, 0, 0, 0, 0, 0, 0, 0, 0, 0,
  1, 0, 0, 0, 3, 0, 0, 0, 0, 0, 0, 0, 0, 0, 0, 0, 132, 0, 0, 0,
  9, 0, 0, 0, 0, 0, 0, 0, 0, 0, 0, 0, 1, 0, 0, 0, 0, 0, 0, 0,
  0, 0x2E, 0x73, 0x79, 0x6D, 0x74, 0x61, 0x62, 0]⟩

def twoHeaders : Elf.Image where
  format := ⟨.little, false⟩
  programs := []
  sections := [⟨0, 0, 0, 0, 0, 0, 0, 0⟩, ⟨1, 3, 0, 132, 9, 0, 1, 0⟩]
  names := ⟨#[0, 0x2E, 0x73, 0x79, 0x6D, 0x74, 0x61, 0x62, 0]⟩

theorem parsed_twoSections : Elf.Image.parse? twoSections = some twoHeaders := by decide +kernel

theorem named_twoSections :
    List.Forall₂ (Elf.Named twoHeaders.names) twoHeaders.sections ["", ".symtab"] :=
  .cons ⟨[], ".symtab".toUTF8.toList ++ [0], by decide +kernel, rfl, by decide +kernel⟩
    (.cons ⟨[0], [], by decide +kernel, rfl, by decide +kernel⟩ .nil)

def twoRows : List (List Char) :=
  ["  [Nr] Name Type".toList, "  [ 0]".toList ++ ' ' :: ([' '] ++ "NULL".toList),
    "  [ 1]".toList ++ ' ' :: (".symtab".toList ++ ' ' :: "STRTAB".toList)]

theorem other_title : Readelf.Other "  [Nr] Name Type".toList := by
  intro index rest same isInteger
  have trimmed : trim "  [Nr] Name Type".toList = '[' :: 'N' :: "r] Name Type".toList := by decide
  rw [trimmed] at same
  match index with
  | [] => exact absurd (List.cons.inj (List.cons.inj same).2).1 (by decide)
  | c :: index =>
    obtain rfl : 'N' = c := (List.cons.inj (List.cons.inj same).2).1
    have word : trim ('N' :: index) = 'N' :: trimEnd index :=
      @trim_indented [] (by simp) 'N' (by decide) index
    obtain ⟨sign, digits, isSign, -, each, text⟩ := isInteger
    rw [word] at text
    simp only [List.mem_cons, List.not_mem_nil, or_false] at isSign
    rcases isSign with rfl | rfl | rfl
    · exact absurd (each 'N' (by rw [← List.nil_append digits, ← text]; simp)) (by decide)
    · exact absurd (List.cons.inj text).1 (by decide)
    · exact absurd (List.cons.inj text).1 (by decide)

theorem table_twoRows : Readelf.Table ["", ".symtab"] twoRows := by
  have blank : isBlank ' ' = true := by decide
  have first : Readelf.Indexed "  [ 0]".toList 0 :=
    ⟨by decide, [' ', ' '], [' '], [], by decide, by decide⟩
  have second : Readelf.Indexed "  [ 1]".toList 1 :=
    ⟨by decide, [' ', ' '], [' '], [], by decide, by decide⟩
  exact .silent other_title (.shows (.unnamed first blank (by simp) (by decide))
    (.shows (.named second blank (by decide) (by decide) (by simpa using blank)) .nil))

def printedTable : String := "  [Nr] Name Type\n  [ 0]  NULL\n  [ 1] .symtab STRTAB\r\n"

theorem laidOut_twoRows : LaidOut twoRows printedTable.toList := by
  have text : printedTable.toList = twoRows[0] ++ (['\n'] ++ (twoRows[1] ++ (['\n'] ++
      (twoRows[2] ++ (['\r', '\n'] ++ []))))) := by decide
  rw [text]
  exact .ended (by decide) (by decide) (.ended (by decide) (by decide)
    (.ended (by decide) (by decide) .nil))

def objectName : Name := ⟨[0x73], by decide⟩

def holdsTwoSections : World Unit :=
  ⟨FileSystem.empty.put [] objectName (.file twoSections), ()⟩

def printingTable : Tools Unit where
  spawn _ _ := return .ok ⟨0, printedTable.toUTF8⟩

end Sample

theorem sections_agree_sample :
    (∀ name, name ∈ Readelf.sectionNames Sample.printedTable ↔ name ∈ ["", ".symtab"] ∧ name ≠ "") ∧
      Elf.inspector.level (.ofString "s") Sample.holdsTwoSections =
        (.ofSections (Readelf.sectionNames Sample.printedTable), Sample.holdsTwoSections) ∧
      (Readelf.inspector Sample.printingTable (.ofString "r")).level (.ofString "s")
          Sample.holdsTwoSections =
        (.ofSections (Readelf.sectionNames Sample.printedTable), Sample.holdsTwoSections) ∧
      StrippedLevel.ofSections [".symtab"] = .symbolTable := by
  have read : Sample.holdsTwoSections.files.read (.ofString "s") = .ok Sample.twoSections := by cbv
  have printed : Readelf.output? Sample.printingTable (.ofString "r") "-SW" (.ofString "s")
      Sample.holdsTwoSections = (some Sample.printedTable, Sample.holdsTwoSections) := by cbv
  obtain ⟨members, -, alike, shown, ranked⟩ :=
    sections_agree Sample.table_twoRows Sample.laidOut_twoRows
  obtain ⟨-, level⟩ := alike _ _ _ _ _ read Sample.parsed_twoSections Sample.named_twoSections
    fun _ => Iff.rfl
  have enumerates : ∀ name, name ∈ [".symtab"] ↔ name ∈ ["", ".symtab"] ∧ name ≠ "" := by
    intro name
    constructor
    · intro member
      obtain rfl := List.mem_singleton.1 member
      decide
    · rintro ⟨member, known⟩
      simpa [known] using member
  exact ⟨members, level, shown _ _ _ _ _ printed,
    (ranked [".symtab"] enumerates).2.2.1.2 (by decide)⟩

end BuildIdCache
