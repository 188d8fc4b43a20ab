import BuildIdCache.Proofs.Elf.Notes
import BuildIdCache.Proofs.Report
import BuildIdCache.Proofs.Text.Word
import BuildIdCache.Proofs.World
import BuildIdCache.Readelf.Output
import BuildIdCache.Source.Device
import BuildIdCache.Source.SearchDirs

set_option autoImplicit false

namespace BuildIdCache

open BuildId Text

namespace Readelf

def Tells (line word : List Char) : Prop :=
  ∃ front rest, MarkedAt "Build ID:".toList front rest line ∧ Leads word rest

theorem lineBuildId?_eq_some (line id : List Char) :
    lineBuildId? line = some id ↔ ∃ word, Tells line word ∧ normalizeChars word = id := by
  unfold lineBuildId?
  simp only [Option.bind_eq_bind, Option.bind_eq_some_iff, Option.pure_def, Option.some.injEq,
    afterFirst?_eq_some, firstWord?_eq_some, Tells]
  constructor
  · rintro ⟨rest, ⟨front, marked⟩, word, leads, same⟩
    exact ⟨word, ⟨front, rest, marked, leads⟩, same⟩
  · rintro ⟨word, ⟨front, rest, marked, leads⟩, same⟩
    exact ⟨rest, ⟨front, marked⟩, word, leads, same⟩

structure FirstTold (output : String) (word : List Char) (before after : List (List Char))
    (line : List Char) : Prop where
  lines : lines output.toList = before ++ line :: after
  silent : ∀ earlier ∈ before, ∀ other, ¬Tells earlier other
  tells : Tells line word

theorem buildId_of_firstTold {output : String} {word line : List Char}
    {before after : List (List Char)} (first : FirstTold output word before after line) :
    buildId output = String.ofList (normalizeChars word) := by
  have none : before.findSome? lineBuildId? = none := by
    rw [List.findSome?_eq_none_iff]
    intro earlier member
    cases found : lineBuildId? earlier with
    | none => rfl
    | some id =>
      obtain ⟨other, tells, -⟩ := (lineBuildId?_eq_some earlier id).1 found
      exact absurd tells (first.silent earlier member other)
  have told := (lineBuildId?_eq_some line _).2 ⟨word, first.tells, rfl⟩
  rw [buildId, first.lines, List.findSome?_append, none, Option.none_or, List.findSome?_cons, told]

end Readelf

namespace Trace

def RecordsId (line word : List Char) : Prop :=
  ∃ front gap back, line = front ++ ("build_id".toList ++ ' ' :: (gap ++ (word ++ back))) ∧
    (∀ c ∈ front, isBlank c = true) ∧ (∀ c ∈ gap, isBlank c = true) ∧
    ∀ c ∈ back, isBlank c = true

theorem ofLine_recordsId {line word : List Char} {descriptor : List UInt8}
    (recordsId : RecordsId line word) (spells : Spells descriptor word) (more : descriptor ≠ []) :
    Record.ofLine line = .buildId (normalForm descriptor) := by
  obtain ⟨front, gap, back, rfl, blank, blank', blank''⟩ := recordsId
  have none : ∀ c ∈ ([] : List Char), isBlank c = true := by simp
  have read : trim (front ++ ("build_id".toList ++ ' ' :: (gap ++ (word ++ back)))) =
      "build_id".toList ++ ' ' :: (gap ++ word) := by
    have kept := trimEnd_ending spells.visible (spells.ne_nil more) ("build_id ".toList ++ gap)
    have started : trimStart ("build_id ".toList ++ gap ++ word) = _ :=
      trimStart_cons (by decide : isBlank 'b' = false) _
    have split : front ++ ("build_id".toList ++ ' ' :: (gap ++ (word ++ back))) =
        front ++ ("build_id ".toList ++ gap ++ word) ++ back := by simp
    rw [split, trim_append blank'', trim, trimStart_append blank, started]
    exact kept
  have id := normalizeChars_spelled more spells blank' none
  rw [List.append_nil] at id
  rw [ofLine_buildId read, BuildId.normalize, String.toList_ofList, id]

namespace Reading

variable (reading : Reading)

def IsQuiet (record : Record) : Prop :=
  (∀ id, record ≠ .buildId id) ∧ ∀ path, record ≠ .fileName path

theorem known_step {record : Record} (quiet : IsQuiet record) :
    (reading.step record).known = reading.known := by
  cases record with
  | buildId id => exact absurd rfl (quiet.1 id)
  | fileName path => exact absurd rfl (quiet.2 path)
  | file dso =>
    simp only [step]
    split <;> rfl
  | symbol name =>
    simp only [step]
    split <;> rfl
  | sample | other | callchain | nothing => rfl

theorem known_foldl {records : List Record} (quiet : ∀ record ∈ records, IsQuiet record) :
    (records.foldl step reading).known = reading.known := by
  induction records generalizing reading with
  | nil => rfl
  | cons record rest ih =>
    exact (ih _ fun later member => quiet later (by simp [member])).trans
      (reading.known_step (quiet record (by simp)))

theorem get?_step {path id : String} (recorded : reading.buildIds.get? path = some id)
    (record : Record) : (reading.step record).buildIds.get? path = some id := by
  by_cases quiet : IsQuiet record
  · have same : (reading.step record).buildIds = reading.buildIds :=
      congrArg Prod.snd (reading.known_step quiet)
    rwa [same]
  · cases record with
    | buildId other => exact recorded
    | fileName name =>
      simp only [step]
      split
      · rw [SortedMap.get?_insertIfAbsent, recorded, Option.some_or]
      · exact recorded
    | _ => simp [IsQuiet] at quiet

theorem get?_foldl {path id : String} (recorded : reading.buildIds.get? path = some id)
    (records : List Record) : (records.foldl step reading).buildIds.get? path = some id := by
  induction records generalizing reading with
  | nil => exact recorded
  | cons record rest ih => exact ih _ (reading.get?_step recorded record)

theorem get?_recorded {path id : String} (unknown : reading.buildIds.get? path = none)
    {between : List Record} (quiet : ∀ record ∈ between, IsQuiet record) (after : List Record) :
    ((.buildId id :: (between ++ .fileName path :: after)).foldl step reading).buildIds.get? path =
      some id := by
  have known := (reading.step (.buildId id)).known_foldl quiet
  rw [List.foldl_cons, List.foldl_append, List.foldl_cons]
  apply get?_foldl
  generalize between.foldl step (reading.step (.buildId id)) = waiting at known ⊢
  have waits : waiting.waiting = some id := congrArg Prod.fst known
  have unrecorded : waiting.buildIds = reading.buildIds := congrArg Prod.snd known
  simp [step, waits, SortedMap.get?_insertIfAbsent, unrecorded, unknown]

end Reading

structure FirstRecorded (text path : String) (word : List Char)
    (before between after : List (List Char)) (idLine nameLine : List Char) : Prop where
  lines : lines text.toList = before ++ idLine :: (between ++ nameLine :: after)
  unknown : (Report.ofRecords (before.map Record.ofLine)).buildIds.get? path = none
  recordsId : RecordsId idLine word
  quiet : ∀ line ∈ between, Reading.IsQuiet (Record.ofLine line)
  names : Record.ofLine nameLine = .fileName path

theorem buildId_of_firstRecorded {text path : String} {word : List Char}
    {before between after : List (List Char)} {idLine nameLine : List Char}
    (first : FirstRecorded text path word before between after idLine nameLine)
    {descriptor : List UInt8} (spells : Spells descriptor word) (more : descriptor ≠ [])
    (reader : Reader) : (reader.loadText text).report.buildId path = normalForm descriptor := by
  have quiet : ∀ record ∈ between.map Record.ofLine, Reading.IsQuiet record := by
    intro record member
    obtain ⟨line, inBetween, rfl⟩ := List.mem_map.1 member
    exact first.quiet line inBetween
  have recorded : (Report.parse text).buildIds.get? path = some (normalForm descriptor) := by
    rw [Report.parse, first.lines, List.map_append, List.map_cons, List.map_append, List.map_cons,
      ofLine_recordsId first.recordsId spells more, first.names, Report.ofRecords,
        List.foldl_append]
    exact Reading.get?_recorded _ first.unknown quiet _
  show ((Report.parse text).buildIds.get? path).getD "" = _
  rw [recorded, Option.getD_some]

end Trace

/-- What stands behind a build-id: a note of a file, the output of a tool that prints the notes, or
the records of a report. The descriptor is the first one there that is not empty; it may be spelled
in letters of any case. -/
inductive Comes (descriptor : List UInt8) : String → Prop
  | note {content : ByteArray} {image : Elf.Image} {earlier later : List Elf.Note} {note : Elf.Note}
      (parsed : Elf.Image.parse? content = some image)
      (split : image.notes content = earlier ++ note :: later)
      (kind : note.kind = Elf.buildIdKind) (has : note.descriptor = descriptor)
      (silent : ∀ other ∈ earlier, other.kind = Elf.buildIdKind → other.descriptor = []) :
      Comes descriptor (Elf.buildId content)
  | print {output : String} {word line : List Char} {before after : List (List Char)}
      (first : Readelf.FirstTold output word before after line) (spells : Spells descriptor word) :
      Comes descriptor (Readelf.buildId output)
  | record {text path : String} {word idLine nameLine : List Char}
      {before between after : List (List Char)}
      (first : Trace.FirstRecorded text path word before between after idLine nameLine)
      (spells : Spells descriptor word) (reader : Trace.Reader) :
      Comes descriptor ((reader.loadText text).report.buildId path)

theorem Comes.eq_normalForm {descriptor : List UInt8} {id : String} (comes : Comes descriptor id)
    (more : descriptor ≠ []) : id = normalForm descriptor := by
  cases comes with
  | note parsed split kind has silent =>
    subst has
    simp only [Elf.buildId, parsed, split, Elf.noteBuildId_append kind more silent]
  | print first spells =>
    have none : ∀ c ∈ ([] : List Char), isBlank c = true := by simp
    have id := normalizeChars_spelled more spells none none
    rw [List.nil_append, List.append_nil] at id
    rw [Readelf.buildId_of_firstTold first, id]
  | record first spells reader => exact Trace.buildId_of_firstRecorded first spells more reader

section

variable {σ : Type} (inspector : Inspector σ)

def SearchDirs.improves (source target : Path) : Effect σ Bool := do
  let offered ← inspector.level source
  let cached ← inspector.level target
  return offered < cached

def SearchDirs.take (cache : Cache) (file : Path) (report : SourceReport)
    (wanted : String × String) : Action σ SourceReport := do
  if ← copyToCache inspector file (cache.pathOf wanted.1) wanted.2 then
    return { report with collected := addOnce report.collected wanted.1 }
  else
    return { report with reused := addOnce report.reused wanted.1 }

variable {inspector} {target : Path} {id other : String} {world asked : World σ}

theorem SearchDirs.needToCopy_asked (source : Path) (isFile : world.files.isFile target = true)
    (asks : inspector.buildId target world = (other, asked)) :
    needToCopy inspector source target id world =
      if id = other then improves inspector source target asked else (true, asked) := by
  have need : (needToCopy inspector source target id).After world fun answer after =>
      (answer, after) =
        if id = other then improves inspector source target asked else (true, asked) := by
    simp only [needToCopy, Effect.after_bind, Effect.after_isFile, isFile, Bool.not_true,
      Bool.false_eq_true, if_false]
    rw [Effect.After, asks]
    by_cases same : id = other
    · subst same
      rw [if_pos rfl, if_neg (not_not.2 rfl)]
      rfl
    · rw [if_neg same, if_pos (Ne.symm same)]
      rfl
  exact need

theorem DeviceSource.isTrusted_asked (known : id ≠ "") (isFile : world.files.isFile target = true)
    (asks : inspector.buildId target world = (other, asked)) :
    isTrusted inspector target id world = (decide (id = other), asked) := by
  have trusts : (isTrusted inspector target id).After world fun answer after =>
      (answer, after) = (decide (id = other), asked) := by
    have more : id.isEmpty = false := by simpa using known
    simp only [isTrusted, Effect.after_bind, Effect.after_isFile, isFile, more, Bool.not_true,
      Bool.false_eq_true, if_false]
    rw [Effect.After, asks]
    rfl
  exact trusts

theorem SearchDirs.offer_asked (cache : Cache) (file : Path) (report : SourceReport)
    (path : String) :
    offer inspector cache file other report (path, id) =
      if id = other then take inspector cache file report (path, id) else return report := by
  by_cases same : id = other
  · subst same
    simp [offer, Watch.offer, Watch.silent, take, copyToCache]
  · simp [offer, Watch.offer, same]

end

/-- Build-ids from any of the sources agree exactly where the descriptors agree as far as a build-id
tells them. So exactly in that case a cached file is trusted, a candidate is taken, and it is asked
which of the two is less stripped. -/
theorem build_ids_agree {first second : List UInt8} (more : first ≠ []) (more' : second ≠ [])
    {id other : String} (comes : Comes first id) (comes' : Comes second other) {σ : Type}
    (inspector : Inspector σ) (source target : Path) {world asked : World σ}
    (isFile : world.files.isFile target = true)
    (asks : inspector.buildId target world = (other, asked)) :
    id = normalForm first ∧ (id = other ↔ told first = told second) ∧
      SearchDirs.needToCopy inspector source target id world =
        (if told first = told second then SearchDirs.improves inspector source target asked
          else (true, asked)) ∧
      DeviceSource.isTrusted inspector target id world =
        (decide (told first = told second), asked) ∧
      ∀ cache file report path, SearchDirs.offer inspector cache file other report (path, id) =
        if told first = told second then SearchDirs.take inspector cache file report (path, id)
        else return report := by
  have known : id ≠ "" := by
    rw [comes.eq_normalForm more]
    exact normalForm_ne_empty first
  have agree : id = other ↔ told first = told second := by
    rw [comes.eq_normalForm more, comes'.eq_normalForm more', normalForm_inj]
  refine ⟨comes.eq_normalForm more, agree, ?_, ?_, fun cache file report path => ?_⟩
  · rw [SearchDirs.needToCopy_asked source isFile asks]
    simp only [agree]
  · rw [DeviceSource.isTrusted_asked known isFile asks]
    simp only [agree]
  · rw [SearchDirs.offer_asked]
    simp only [agree]

namespace Sample

def shortDescriptor : List UInt8 := [0xAB, 0xCD]

def longDescriptor : List UInt8 := [0xAB, 0xCD] ++ List.replicate 18 0 ++ [0x01]

def printed : String := "Displaying notes\n  Build ID:  ABcd (two bytes)\n"

def recorded : String :=
  "build_id  0XABCD00000000000000000000000000000000000001 \n  pid 1\nfilename /a b \n"

theorem comes_printed : Comes shortDescriptor (Readelf.buildId printed) := by
  have spells : Spells shortDescriptor "ABcd".toList :=
    ⟨[], "ABcd".toList, by decide, by decide, rfl⟩
  have first : Readelf.FirstTold printed "ABcd".toList ["Displaying notes".toList] []
      "  Build ID:  ABcd (two bytes)".toList := by
    refine ⟨by decide, fun earlier member other tells => ?_, ?_⟩
    · obtain rfl := List.mem_singleton.1 member
      have told := (Readelf.lineBuildId?_eq_some _ _).2 ⟨other, tells, rfl⟩
      have none : Readelf.lineBuildId? "Displaying notes".toList = none := by decide
      cases none.symm.trans told
    · obtain ⟨front, marked⟩ := (afterFirst?_eq_some "Build ID:".toList
        "  Build ID:  ABcd (two bytes)".toList "  ABcd (two bytes)".toList).1 (by decide)
      exact ⟨front, _, marked, (firstWord?_eq_some _ _).1 (by decide)⟩
  exact .print first spells

theorem comes_recorded (reader : Trace.Reader) :
    Comes longDescriptor ((reader.loadText recorded).report.buildId "/a b") := by
  let word := "0XABCD00000000000000000000000000000000000001".toList
  have spells : Spells longDescriptor word := ⟨['0', 'X'], word.drop 2, by decide, by decide, rfl⟩
  have first : Trace.FirstRecorded recorded "/a b" word [] ["  pid 1".toList] []
      ("build_id  ".toList ++ word ++ [' ']) "filename /a b ".toList := by
    refine ⟨by decide, by decide, ?_, fun line member => ?_, by decide⟩
    · exact ⟨[], [' '], [' '], by decide, by decide, by decide, by decide⟩
    · obtain rfl := List.mem_singleton.1 member
      have quiet : Trace.Record.ofLine "  pid 1".toList = .nothing := by decide
      rw [quiet]
      exact ⟨fun _ => nofun, fun _ => nofun⟩
  exact .record first spells reader

end Sample

theorem build_ids_agree_sample :
    let reader := Trace.Reader.new none
    let id := Readelf.buildId Sample.printed
    let other := (reader.loadText Sample.recorded).report.buildId "/a b"
    let inspector : Inspector Unit := ⟨"sample", fun _ => return other, fun _ => return []⟩
    id = normalForm Sample.shortDescriptor ∧ id = other ∧
      SearchDirs.needToCopy inspector (.ofString "b") (.ofString "e") id Elf.Sample.world =
        (false, Elf.Sample.world) ∧
      DeviceSource.isTrusted inspector (.ofString "e") id Elf.Sample.world =
        (true, Elf.Sample.world) := by
  intro reader id other inspector
  have isFile : Elf.Sample.world.files.isFile (.ofString "e") = true := by cbv
  have asks : inspector.buildId (.ofString "e") Elf.Sample.world = (other, Elf.Sample.world) := rfl
  have same : told Sample.shortDescriptor = told Sample.longDescriptor := by decide
  obtain ⟨normal, agree, need, trusted, -⟩ := build_ids_agree (by decide) (by decide)
    Sample.comes_printed (Sample.comes_recorded reader) inspector (.ofString "b") (.ofString "e")
    isFile asks
  rw [if_pos same] at need
  exact ⟨normal, agree.2 same, need, trusted.trans (by rw [decide_eq_true same])⟩

end BuildIdCache
