import BuildIdCache.Proofs.SortedMap
import BuildIdCache.Proofs.Text.Blank
import BuildIdCache.Trace.Reader

set_option autoImplicit false

namespace BuildIdCache.Trace

open Text

/-- What a line of a report says. A detail is whatever else there is to say of a sample, or of what
the records below are about: its value is all that follows the colon. -/
inductive Entry
  | sample
  | callchain
  | file (dso : String)
  | symbol (name : String)
  | detail (key value : String)
  | other (text : String)
  | buildId (id : String)
  | fileName (path : String)

namespace Entry

def keywords : List String := ["sample", "callchain", "file", "symbol"]

def text : Entry → String
  | .sample => "sample:"
  | .callchain => "callchain:"
  | .file dso => "file: " ++ dso
  | .symbol name => "symbol: " ++ name
  | .detail key value => key ++ ":" ++ value
  | .other text => text
  | .buildId id => "build_id " ++ id
  | .fileName path => "filename " ++ path

def record : Entry → Record
  | .sample => .sample
  | .callchain => .callchain
  | .file dso => .file dso
  | .symbol name => .symbol name
  | .detail _ _ => .nothing
  | .other _ => .other
  | .buildId id => .buildId (BuildId.normalize id)
  | .fileName path => .fileName path

def isDetail : Entry → Bool
  | .detail _ _ => true
  | _ => false

def IsName (name : String) : Prop := Trimmed name.toList ∧ '\n' ∉ name.toList

def Plain : Entry → Prop
  | .sample | .callchain => True
  | .file dso => IsName dso ∧ dso ≠ ""
  | .symbol name => IsName name
  | .detail key value =>
    (∀ c ∈ key.toList, isWordChar c = true) ∧ key ∉ keywords ∧ '\n' ∉ value.toList
  | .other text =>
    text ≠ "" ∧ isIndented text.toList = false ∧ '\n' ∉ text.toList ∧
      trim text.toList ≠ "sample:".toList ∧ ¬"build_id ".toList <+: text.toList ∧
      ¬"filename ".toList <+: text.toList
  | .buildId id => IsName id ∧ id ≠ ""
  | .fileName path => IsName path ∧ path ≠ ""

instance (name : String) : Decidable (IsName name) := inferInstanceAs (Decidable (_ ∧ _))

instance : (entry : Entry) → Decidable entry.Plain
  | .sample | .callchain => isTrue trivial
  | .symbol name => inferInstanceAs (Decidable (IsName name))
  | .file _ | .detail _ _ | .other _ | .buildId _ | .fileName _ =>
      inferInstanceAs (Decidable (_ ∧ _))

def Fits (indent : List Char) : Entry → Prop
  | .sample | .buildId _ | .fileName _ => True
  | .other _ => indent = []
  | .callchain | .file _ | .symbol _ | .detail _ _ => indent ≠ []

instance (indent : List Char) : (entry : Entry) → Decidable (entry.Fits indent)
  | .sample | .buildId _ | .fileName _ => isTrue trivial
  | .other _ => inferInstanceAs (Decidable (indent = []))
  | .callchain | .file _ | .symbol _ | .detail _ _ => inferInstanceAs (Decidable (indent ≠ []))

end Entry

structure Line where
  indent : List Char
  entry : Entry
  blank : ∀ c ∈ indent, isBlank c = true ∧ c ≠ '\n'
  fits : entry.Fits indent
  plain : entry.Plain

def Line.text (line : Line) : List Char := line.indent ++ line.entry.text.toList

theorem isIndented_append {front : List Char} (notEmpty : front ≠ []) (rest : List Char) :
    isIndented (front ++ rest) = isIndented front := by
  cases front with
  | nil => exact absurd rfl notEmpty
  | cons c front => rfl

theorem ofLine_closeLine (s : List Char) :
    Record.ofLine (closeLine s.reverse) = Record.ofLine s := by
  have indented : (!isIndented (closeLine s.reverse) && !(trim s).isEmpty) =
      (!isIndented s && !(trim s).isEmpty) := by
    cases s using List.reverseRecOn with
    | nil => rfl
    | append_singleton front last =>
      by_cases ends : last = '\r'
      · subst ends
        by_cases empty : front = []
        · subst empty
          decide
        · simp [closeLine, isIndented_append empty]
      · simp [closeLine, ends]
  simp only [Record.ofLine, trim_closeLine, indented]

theorem ofLine_word {line rest : List Char} {key : String} {stop : Char}
    (read : trim line = key.toList ++ stop :: rest)
    (keyWord : ∀ c ∈ key.toList, isWordChar c = true) (keyStops : isWordChar stop = false) :
    Record.ofLine line =
      if "build_id" = key ∧ ' ' = stop then .buildId (BuildId.normalize (String.ofList rest))
      else if "filename" = key ∧ ' ' = stop then .fileName (String.ofList (trim rest))
      else if "sample" = key ∧ ':' = stop ∧ rest = [] then .sample
      else if isIndented line = false then .other
      else if "callchain" = key ∧ ':' = stop ∧ rest = [] then .callchain
      else if "file" = key ∧ ':' = stop then
        if (trim rest).isEmpty then .nothing else .file (String.ofList (trim rest))
      else if "symbol" = key ∧ ':' = stop then .symbol (String.ofList (trim rest))
      else .nothing := by
  -- A mark is a word and the character that ends it, so it stands there only if both are the same.
  have found : ∀ (mark : String) (c : Char), (∀ m ∈ mark.toList, isWordChar m = true) →
      isWordChar c = false → after? (mark.toList ++ [c]) (trim line) =
        if mark = key ∧ c = stop then some rest else none := fun mark c markWord markStops => by
    simp only [read, after?_word markWord keyWord markStops keyStops, String.toList_inj]
  have whole : ∀ mark : String, (∀ m ∈ mark.toList, isWordChar m = true) →
      (trim line = mark.toList ++ [':'] ↔ mark = key ∧ ':' = stop ∧ rest = []) :=
    fun mark markWord => by
    constructor
    · intro same
      have first := found mark ':' markWord (by decide)
      have all := after?_append (mark.toList ++ [':']) []
      rw [List.append_nil] at all
      rw [same, all] at first
      split at first
      next both => exact ⟨both.1, both.2, (Option.some.inj first).symm⟩
      next => cases first
    · rintro ⟨rfl, rfl, rfl⟩
      exact read
  have buildId : after? "build_id ".toList (trim line) = _ :=
    found "build_id" ' ' (by decide) (by decide)
  have fileName : after? "filename ".toList (trim line) = _ :=
    found "filename" ' ' (by decide) (by decide)
  have file : after? "file:".toList (trim line) = _ := found "file" ':' (by decide) (by decide)
  have symbol : after? "symbol:".toList (trim line) = _ :=
    found "symbol" ':' (by decide) (by decide)
  have sample : trim line = "sample:".toList ↔ _ := whole "sample" (by decide)
  have callchain : trim line = "callchain:".toList ↔ _ := whole "callchain" (by decide)
  have notEmpty : (trim line).isEmpty = false := by simp [read]
  simp only [Record.ofLine, buildId, fileName, file, symbol, sample, callchain, notEmpty]
  by_cases isBuildId : "build_id" = key ∧ ' ' = stop
  · simp only [if_pos isBuildId]
  by_cases isFileName : "filename" = key ∧ ' ' = stop
  · simp only [if_neg isBuildId, if_pos isFileName]
  by_cases isFile : "file" = key ∧ ':' = stop
  · simp only [if_neg isBuildId, if_neg isFileName, if_pos isFile, Bool.not_false, Bool.and_true,
      Bool.not_eq_true']
  by_cases isSymbol : "symbol" = key ∧ ':' = stop
  · simp only [if_neg isBuildId, if_neg isFileName, if_neg isFile, if_pos isSymbol, Bool.not_false,
      Bool.and_true, Bool.not_eq_true']
  · simp only [if_neg isBuildId, if_neg isFileName, if_neg isFile, if_neg isSymbol, Bool.not_false,
      Bool.and_true, Bool.not_eq_true']

theorem visible_of_word {word : List Char} (isWord : ∀ c ∈ word, isWordChar c = true) :
    ∀ c ∈ word, isBlank c = false := fun c member => by
  have both := isWord c member
  simp only [isWordChar, Bool.and_eq_true, Bool.not_eq_true'] at both
  exact both.1

theorem trim_colon {indent : List Char} (blank : ∀ c ∈ indent, isBlank c = true)
    (word : List Char) (isWord : ∀ c ∈ word, isWordChar c = true) (s : List Char) :
    trim (indent ++ (word ++ ':' :: s)) = word ++ ':' :: trimEnd s := by
  have visible := visible_of_word isWord
  have colon : isBlank ':' = false := by decide
  have started : trimStart (word ++ ':' :: s) = word ++ ':' :: s := by
    cases word with
    | nil => exact trimStart_cons colon s
    | cons c word => exact trimStart_cons (visible c (by simp)) _
  rw [trim, trimStart_append blank, started, trimEnd_word visible, trimEnd_cons colon]

theorem trim_space {indent : List Char} (blank : ∀ c ∈ indent, isBlank c = true)
    (word : List Char) (isWord : ∀ c ∈ word, isWordChar c = true) (notEmpty : word ≠ [])
    {s : List Char}
    (trimmed : Trimmed s) (more : s ≠ []) :
    trim (indent ++ (word ++ ' ' :: s)) = word ++ ' ' :: s := by
  have visible := visible_of_word isWord
  have started : trimStart (word ++ ' ' :: s) = word ++ ' ' :: s := by
    cases word with
    | nil => exact absurd rfl notEmpty
    | cons c word => exact trimStart_cons (visible c (by simp)) _
  have kept : trimEnd (' ' :: s) = ' ' :: s := by
    rw [trimEnd_before ' ' (by rwa [trimmed.trimEnd]), trimmed.trimEnd]
  rw [trim, trimStart_append blank, started, trimEnd_word visible, kept]

section Marks

variable {line rest : List Char}

theorem ofLine_sample (read : trim line = "sample".toList ++ [':']) :
    Record.ofLine line = .sample := by
  rw [ofLine_word read (by decide) (by decide)]
  simp

theorem ofLine_callchain (read : trim line = "callchain".toList ++ [':'])
    (indented : isIndented line = true) : Record.ofLine line = .callchain := by
  rw [ofLine_word read (by decide) (by decide)]
  simp [indented]

theorem ofLine_file (read : trim line = "file".toList ++ ':' :: rest)
    (indented : isIndented line = true) (more : trim rest ≠ []) :
    Record.ofLine line = .file (String.ofList (trim rest)) := by
  rw [ofLine_word read (by decide) (by decide)]
  simp [indented, more]

theorem ofLine_symbol (read : trim line = "symbol".toList ++ ':' :: rest)
    (indented : isIndented line = true) :
    Record.ofLine line = .symbol (String.ofList (trim rest)) := by
  rw [ofLine_word read (by decide) (by decide)]
  simp [indented]

theorem ofLine_detail {key : String} (keyWord : ∀ c ∈ key.toList, isWordChar c = true)
    (other : key ∉ Entry.keywords) (read : trim line = key.toList ++ ':' :: rest)
    (indented : isIndented line = true) : Record.ofLine line = .nothing := by
  simp only [Entry.keywords, List.mem_cons, List.not_mem_nil, or_false, not_or] at other
  obtain ⟨sample, callchain, file, symbol⟩ := other
  rw [ofLine_word read keyWord (by decide)]
  simp [indented, Ne.symm sample, Ne.symm callchain, Ne.symm file, Ne.symm symbol]

theorem ofLine_buildId (read : trim line = "build_id".toList ++ ' ' :: rest) :
    Record.ofLine line = .buildId (BuildId.normalize (String.ofList rest)) := by
  rw [ofLine_word read (by decide) (by decide)]
  simp

theorem ofLine_fileName (read : trim line = "filename".toList ++ ' ' :: rest) :
    Record.ofLine line = .fileName (String.ofList (trim rest)) := by
  rw [ofLine_word read (by decide) (by decide)]
  simp

theorem ofLine_other (notEmpty : line ≠ []) (flush : isIndented line = false)
    (noSample : trim line ≠ "sample:".toList) (noBuildId : ¬"build_id ".toList <+: line)
    (noFileName : ¬"filename ".toList <+: line) : Record.ofLine line = .other := by
  cases line with
  | nil => exact absurd rfl notEmpty
  | cons c line =>
    have read : trim (c :: line) = c :: trimEnd line :=
      @trim_indented [] (by simp) c flush line
    have front : trim (c :: line) <+: c :: line := by
      rw [read, List.prefix_cons_inj]
      exact List.reverse_suffix.1 (by simpa [trimEnd] using List.dropWhile_suffix isBlank)
    have unmarked : ∀ mark : String, ¬mark.toList <+: c :: line →
        after? mark.toList (trim (c :: line)) = none := fun mark unlike => by
      cases found : after? mark.toList (trim (c :: line)) with
      | none => rfl
      | some rest => exact absurd (.trans ⟨rest, (eq_append_of_after? found).symm⟩ front) unlike
    have more : (trim (c :: line)).isEmpty = false := by simp [read]
    simp only [Record.ofLine, unmarked _ noBuildId, unmarked _ noFileName, noSample, flush, more]
    simp

end Marks

namespace Line

theorem isIndented_text (line : Line) (notEmpty : line.indent ≠ []) :
    isIndented line.text = true := by
  rw [text, isIndented_append notEmpty]
  cases same : line.indent with
  | nil => exact absurd same notEmpty
  | cons c indent => exact (line.blank c (by simp [same])).1

theorem toList_mark (mark word : String) (tail : List Char)
    (split : mark.toList = word.toList ++ tail) (name : String) :
    (mark ++ name).toList = word.toList ++ (tail ++ name.toList) := by
  rw [String.toList_append, split, List.append_assoc]

theorem ofLine_text (line : Line) : Record.ofLine line.text = line.entry.record := by
  have indented := line.isIndented_text
  obtain ⟨indent, entry, clear, fits, plain⟩ := line
  have blank : ∀ c ∈ indent, isBlank c = true := fun c member => (clear c member).1
  simp only [text] at indented ⊢
  cases entry with
  | sample => exact ofLine_sample (trim_colon blank "sample".toList (by decide) [])
  | callchain =>
    exact ofLine_callchain (trim_colon blank "callchain".toList (by decide) [])
      (indented fits)
  | file dso =>
    obtain ⟨⟨trimmed, -⟩, notEmpty⟩ := plain
    have text := toList_mark "file: " "file" [':', ' '] (by decide) dso
    have whole := trim_trimEnd_space trimmed
    have read : trim (indent ++ (Entry.file dso).text.toList) = _ :=
      text ▸ trim_colon blank _ (by decide) (' ' :: dso.toList)
    rw [ofLine_file read (indented fits) (by simpa [whole] using notEmpty), whole,
      String.ofList_toList]
    rfl
  | symbol name =>
    obtain ⟨trimmed, -⟩ := plain
    have text := toList_mark "symbol: " "symbol" [':', ' '] (by decide) name
    have read : trim (indent ++ (Entry.symbol name).text.toList) = _ :=
      text ▸ trim_colon blank _ (by decide) (' ' :: name.toList)
    rw [ofLine_symbol read (indented fits), trim_trimEnd_space trimmed, String.ofList_toList]
    rfl
  | detail key value =>
    obtain ⟨keyWord, other, -⟩ := plain
    have text : (Entry.detail key value).text.toList = key.toList ++ ':' :: value.toList := by
      simp [Entry.text]
    have read : trim (indent ++ (Entry.detail key value).text.toList) = _ :=
      text ▸ trim_colon blank _ keyWord value.toList
    exact ofLine_detail keyWord other read (indented fits)
  | other text =>
    obtain ⟨notEmpty, flush, -, noSample, noBuildId, noFileName⟩ := plain
    obtain rfl : indent = [] := fits
    exact ofLine_other (by simpa [Entry.text] using notEmpty) flush noSample noBuildId noFileName
  | buildId id =>
    obtain ⟨⟨trimmed, -⟩, notEmpty⟩ := plain
    have text := toList_mark "build_id " "build_id" [' '] (by decide) id
    have read := trim_space blank "build_id".toList (by decide) (by decide) trimmed
      (by simpa using notEmpty)
    rw [Entry.text, text, List.singleton_append, ofLine_buildId read, String.ofList_toList]
    rfl
  | fileName path =>
    obtain ⟨⟨trimmed, -⟩, notEmpty⟩ := plain
    have text := toList_mark "filename " "filename" [' '] (by decide) path
    have read := trim_space blank "filename".toList (by decide) (by decide) trimmed
      (by simpa using notEmpty)
    rw [Entry.text, text, List.singleton_append, ofLine_fileName read,
      show trim path.toList = path.toList from trimmed, String.ofList_toList]
    rfl

theorem newline_notMem_text (line : Line) : '\n' ∉ line.text := by
  obtain ⟨indent, entry, clear, fits, plain⟩ := line
  have none : '\n' ∉ indent := fun member => (clear _ member).2 rfl
  have word : ∀ key : List Char, (∀ c ∈ key, isWordChar c = true) → '\n' ∉ key :=
    fun key isWord member => absurd (isWord _ member) (by decide)
  simp only [text, List.mem_append, none, false_or]
  cases entry with
  | sample | callchain => decide
  | file dso => simpa [Entry.text] using plain.1.2
  | symbol name => simpa [Entry.text] using plain.2
  | detail key value => simpa [Entry.text] using ⟨word _ plain.1, plain.2.2⟩
  | other text => exact plain.2.2.1
  | buildId id => simpa [Entry.text] using plain.1.2
  | fileName path => simpa [Entry.text] using plain.1.2

end Line

theorem records_of_lines (lines : List Line) :
    (Text.lines (lines.flatMap fun line => line.text ++ ['\n'])).map Record.ofLine =
      lines.map fun line => line.entry.record := by
  induction lines with
  | nil => rfl
  | cons line rest ih =>
    rw [List.flatMap_cons, List.append_assoc, List.singleton_append,
      lines_newline _ _ line.newline_notMem_text, List.map_cons, ofLine_closeLine, line.ofLine_text,
      ih, List.map_cons]

def Frame.entries (frame : Frame) : List Entry :=
  .file frame.dso :: (frame.symbol.map Entry.symbol).toList

structure Block where
  sample : Sample
  headed : Bool
  heads : headed = false → sample.callchain = []

namespace Block

def chain (block : Block) : List Entry :=
  if block.headed then .callchain :: block.sample.callchain.flatMap Frame.entries else []

def entries (block : Block) : List Entry :=
  .sample :: (block.sample.frame.toList.flatMap Frame.entries ++ block.chain)

end Block

def identified (record : String × String) : List Entry := [.buildId record.1, .fileName record.2]

namespace Reading

variable (reading : Reading)

def along (entries : List Entry) : Reading := (entries.map Entry.record).foldl step reading

theorem along_append (entries more : List Entry) :
    reading.along (entries ++ more) = (reading.along entries).along more := by
  simp [along, List.foldl_append]

theorem along_filter (entries : List Entry) :
    reading.along (entries.filter fun entry => !entry.isDetail) = reading.along entries := by
  induction entries generalizing reading with
  | nil => rfl
  | cons entry rest ih =>
    cases entry with
    | detail key value => exact ih reading
    | _ => exact ih (reading.step _)

theorem nameLast_append (name : String) (frames : List Frame) (frame : Frame) :
    nameLast name (frames ++ [frame]) = frames ++ [nameFrame name frame] := by
  induction frames with
  | nil => rfl
  | cons first rest ih =>
    cases rest with
    | nil => rfl
    | cons second rest => simpa [nameLast] using ih

theorem along_frame {sample : Sample} (opened : reading.opened = some sample)
    (own : reading.inCallchain = false) (frame : Frame) :
    reading.along (Frame.entries frame) =
      { reading with opened := some { sample with frame := some frame } } := by
  obtain ⟨dso, name⟩ := frame
  cases name <;> simp [along, Frame.entries, Entry.record, step, own, opened, inSample, nameFrame]

theorem along_called {sample : Sample} (opened : reading.opened = some sample)
    (called : reading.inCallchain = true) (frame : Frame) :
    reading.along (Frame.entries frame) =
      { reading with opened := some { sample with callchain := sample.callchain ++ [frame] } } := by
  obtain ⟨dso, name⟩ := frame
  cases name <;> simp [along, Frame.entries, Entry.record, step, called, opened, inSample,
    nameLast_append, nameFrame]

theorem along_callchain {sample : Sample} (opened : reading.opened = some sample)
    (called : reading.inCallchain = true) (frames : List Frame) :
    reading.along (frames.flatMap Frame.entries) =
      { reading with opened := some { sample with callchain := sample.callchain ++ frames } } := by
  induction frames generalizing reading sample with
  | nil => simp [along, ← opened]
  | cons frame rest ih =>
    have further := ih
      { reading with opened := some { sample with callchain := sample.callchain ++ [frame] } }
      rfl called
    rw [List.flatMap_cons, along_append, reading.along_called opened called, further]
    simp

theorem along_block (block : Block) :
    reading.along block.entries =
      { reading with
        closed := reading.close
        opened := some block.sample
        inCallchain := block.headed } := by
  obtain ⟨⟨frame, callchain⟩, headed, heads⟩ := block
  have opens : reading.along [.sample] =
      { reading with closed := reading.close, opened := some ⟨none, []⟩, inCallchain := false } :=
      rfl
  have own : (reading.along [.sample]).along (frame.toList.flatMap Frame.entries) =
      { reading with
        closed := reading.close, opened := some ⟨frame, []⟩, inCallchain := false } := by
    cases frame with
    | none => exact opens
    | some frame =>
      rw [opens, Option.toList_some, List.flatMap_singleton, along_frame _ rfl rfl]
  rw [Block.entries, ← List.singleton_append, along_append, along_append, own, Block.chain]
  cases headed with
  | false =>
    obtain rfl : callchain = [] := heads rfl
    rfl
  | true =>
    rw [if_pos rfl, ← List.singleton_append, along_append]
    exact along_callchain
      { reading with closed := reading.close, opened := some ⟨frame, []⟩, inCallchain := true }
      rfl rfl callchain

def known (reading : Reading) : Option String × SortedMap String String :=
  (reading.waiting, reading.buildIds)

theorem along_blocks (blocks : List Block) :
    (reading.along (blocks.flatMap Block.entries)).close =
        (blocks.map Block.sample).reverse ++ reading.close ∧
      (reading.along (blocks.flatMap Block.entries)).known = reading.known := by
  induction blocks generalizing reading with
  | nil => exact ⟨rfl, rfl⟩
  | cons block rest ih =>
    rw [List.flatMap_cons, along_append, along_block]
    obtain ⟨samples, same⟩ := ih
      { reading with
        closed := reading.close, opened := some block.sample, inCallchain := block.headed }
    exact ⟨samples.trans (by simp [close]), same⟩

theorem along_others (others : List String) :
    (reading.along (others.map Entry.other)).close = reading.close ∧
      (reading.along (others.map Entry.other)).known = reading.known := by
  induction others generalizing reading with
  | nil => exact ⟨rfl, rfl⟩
  | cons text rest ih => exact ih (reading.step .other)

theorem along_identified (records : List (String × String)) :
    (reading.along (records.flatMap identified)).close = reading.close ∧
      ∀ path, (reading.along (records.flatMap identified)).buildIds.get? path =
        (reading.buildIds.get? path).or
          ((records.find? (·.2 = path)).map fun record => BuildId.normalize record.1) := by
  induction records generalizing reading with
  | nil => exact ⟨rfl, fun path => by simp [along]⟩
  | cons record rest ih =>
    obtain ⟨id, file⟩ := record
    obtain ⟨samples, found⟩ := ih
      { reading with
        waiting := none
        buildIds := (reading.buildIds.insertIfAbsent file (BuildId.normalize id)).2 }
    rw [List.flatMap_cons, along_append]
    refine ⟨samples, fun path => (found path).trans ?_⟩
    rw [SortedMap.get?_insertIfAbsent, List.find?_cons, Option.or_assoc]
    by_cases named : file = path <;> simp [named]

end Reading

/-- Lines that show samples, then records of other kinds, then the build-ids of files, with details
anywhere between them. -/
def Shows (lines : List Line) (blocks : List Block) (others : List String)
    (records : List (String × String)) : Prop :=
  (lines.map Line.entry).filter (fun entry => !entry.isDetail) =
    blocks.flatMap Block.entries ++ others.map Entry.other ++ records.flatMap identified

def textOf (lines : List Line) : String :=
  String.ofList (lines.flatMap fun line => line.text ++ ['\n'])

theorem loadText_textOf (reader : Reader) (lines : List Line) (blocks : List Block)
    (others : List String) (records : List (String × String))
    (shows : Shows lines blocks others records) :
    let loaded := reader.loadText (textOf lines)
    loaded.report.samples = blocks.map Block.sample ∧
      loaded.remaining = blocks.map Block.sample ∧
      ∀ path, loaded.report.buildId path =
        ((records.find? (·.2 = path)).map fun record => BuildId.normalize record.1).getD "" := by
  intro loaded
  have read : (Text.lines (textOf lines).toList).map Record.ofLine =
      (lines.map Line.entry).map Entry.record := by
    rw [textOf, String.toList_ofList, records_of_lines, List.map_map]
    rfl
  let reading := Reading.start.along (lines.map Line.entry)
  have report : loaded.report = ⟨reading.close.reverse, reading.buildIds⟩ := by
    show Report.ofRecords _ = _
    rw [read]
    rfl
  have sections : reading = ((Reading.start.along (blocks.flatMap Block.entries)).along
      (others.map Entry.other)).along (records.flatMap identified) := by
    rw [← Reading.start.along_append, ← Reading.start.along_append]
    exact (Reading.start.along_filter _).symm.trans (congrArg Reading.start.along shows)
  obtain ⟨samples, same⟩ := Reading.start.along_blocks blocks
  obtain ⟨samples', same'⟩ :=
    (Reading.start.along (blocks.flatMap Block.entries)).along_others others
  obtain ⟨samples'', found⟩ := Reading.along_identified _ records
  have closed : loaded.report.samples = blocks.map Block.sample := by
    rw [report, sections, samples'', samples', samples]
    simp [Reading.close, Reading.start]
  refine ⟨closed, ?_, fun path => ?_⟩
  · rw [Reader.remaining, closed]
    rfl
  · have none : (Reading.along _ (others.map Entry.other)).buildIds = _ :=
      congrArg Prod.snd (same'.trans same)
    rw [Report.buildId, report, sections, found, none]
    rfl

theorem loadText_textOf_sample :
    let near := " ".toList
    let far := "\t  ".toList
    let lines : List Line := [
      ⟨[], .sample, by decide, by decide, by decide⟩,
      ⟨near, .detail "event_type" " cpu-cycles", by decide, by decide, by decide⟩,
      ⟨near, .file "sample:", by decide, by decide, by decide⟩,
      ⟨near, .detail "vaddr_in_file" "", by decide, by decide, by decide⟩,
      ⟨near, .symbol "", by decide, by decide, by decide⟩,
      ⟨near, .callchain, by decide, by decide, by decide⟩,
      ⟨far, .file "file: /a b", by decide, by decide, by decide⟩,
      ⟨[], .other "lost_situation:", by decide, by decide, by decide⟩,
      ⟨near, .detail "lost_count" " 0", by decide, by decide, by decide⟩,
      ⟨near, .buildId "0xAB", by decide, by decide, by decide⟩,
      ⟨near, .fileName "sample:", by decide, by decide, by decide⟩]
    let sample : Sample := ⟨some ⟨"sample:", some ""⟩, [⟨"file: /a b", none⟩]⟩
    let loaded := (Reader.new none).loadText (textOf lines)
    loaded.report.samples = [sample] ∧ loaded.report.buildId "/b" = "" ∧
      loaded.report.buildId "sample:" = BuildId.normalize "0xAB" := by
  intro near far lines sample loaded
  obtain ⟨samples, -, found⟩ := loadText_textOf (Reader.new none) lines
    [⟨sample, true, by decide⟩] ["lost_situation:"] [("0xAB", "sample:")] rfl
  exact ⟨samples, (found "/b").trans rfl, (found "sample:").trans rfl⟩

end BuildIdCache.Trace
