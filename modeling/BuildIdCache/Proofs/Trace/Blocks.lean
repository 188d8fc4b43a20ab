import BuildIdCache.Proofs.Trace.Apart

set_option autoImplicit false

namespace BuildIdCache.Trace

open Text

def endsBlock (line : List Char) : Bool := isSampleLine line || isRecordLine line

def blockAt (line : List Char) (rest : List (List Char)) : List (List Char) :=
  line :: rest.takeWhile fun later => !endsBlock later

/-- The lines of each sample, from the line that opens it on. -/
def blocks : List (List Char) → List (List (List Char))
  | [] => []
  | line :: rest => if isSampleLine line then blockAt line rest :: blocks rest else blocks rest

theorem noSample_of_goesOn {line : List Char} (goesOn : endsBlock line = false) :
    isSampleLine line = false := by
  simp only [endsBlock, Bool.or_eq_false_iff] at goesOn
  exact goesOn.1

theorem goesOn_inside (rest : List (List Char)) :
    ∀ later ∈ rest.takeWhile fun later => !endsBlock later, endsBlock later = false :=
  fun later member => by simpa using List.mem_takeWhile_imp member

theorem length_blocks (lines : List (List Char)) :
    (blocks lines).length = lines.countP isSampleLine := by
  induction lines with
  | nil => rfl
  | cons line rest ih => cases sample : isSampleLine line <;> simp [blocks, sample, ih]

theorem sublist_of_mem_blocks {lines block : List (List Char)} (member : block ∈ blocks lines) :
    block.Sublist lines := by
  induction lines with
  | nil => cases member
  | cons line rest ih =>
    rw [blocks] at member
    split at member
    · rcases List.mem_cons.1 member with rfl | later
      · exact (List.takeWhile_sublist _).cons_cons line
      · exact (ih later).cons line
    · exact (ih member).cons line

theorem takeWhile_append_blocks (lines : List (List Char)) :
    ((lines.takeWhile fun line => !endsBlock line) ++ (blocks lines).flatten).Sublist lines := by
  induction lines with
  | nil => exact .slnil
  | cons line rest ih =>
    have later := (List.sublist_append_right _ _).trans ih
    cases ends : endsBlock line with
    | true =>
      rw [List.takeWhile_cons_of_neg (by simp [ends]), List.nil_append, blocks]
      split
      · exact ih.cons_cons line
      · exact later.cons line
    | false =>
      rw [List.takeWhile_cons_of_pos (by simp [ends]), blocks,
        if_neg (by simp [noSample_of_goesOn ends])]
      exact ih.cons_cons line

theorem flatten_blocks_sublist (lines : List (List Char)) :
    (blocks lines).flatten.Sublist lines :=
  (List.sublist_append_right _ _).trans (takeWhile_append_blocks lines)

theorem isSampleLine_head_blocks (lines : List (List Char)) :
    ∀ line ∈ (blocks lines).flatten.head?, isSampleLine line = true := by
  induction lines with
  | nil => simp [blocks]
  | cons line rest ih =>
    rw [blocks]
    split
    next sample => simpa [blockAt] using sample
    next => exact ih

theorem ofLine_eq_sample {line : List Char} (sample : isSampleLine line = true) :
    Record.ofLine line = .sample := by
  have read : trim line = "sample:".toList := of_decide_eq_true sample
  rw [ofLine_sample read]

theorem ofLine_ne_sample {line : List Char} (noSample : isSampleLine line = false) :
    Record.ofLine line ≠ .sample := by
  have reads := reads_ofLine line
  intro same
  rw [same] at reads
  cases reads with
  | sample notId sample => simp [sample] at noSample
  | inner notId noSample noRecord isInner => cases isInner

theorem ofLine_of_endsBlock {line : List Char} (ends : endsBlock line = true) :
    Record.ofLine line = .sample ∨ Record.ofLine line = .other := by
  cases sample : isSampleLine line with
  | true => exact .inl (ofLine_eq_sample sample)
  | false =>
    have isRecord : isRecordLine line = true := by simpa [endsBlock, sample] using ends
    have notId : isIdLine line = false := by
      simp only [isRecordLine, Bool.and_eq_true, Bool.not_eq_true'] at isRecord
      exact isRecord.2
    have reads := reads_ofLine line
    generalize Record.ofLine line = record at reads ⊢
    cases reads with
    | buildId gives => exact absurd gives ((not_told notId).1 _)
    | fileName names => exact absurd names ((not_told notId).2 _)
    | sample => exact .inl rfl
    | other => exact .inr rfl
    | inner notId noSample noRecord => simp [isRecord] at noRecord

theorem ofLine_of_goesOn {line : List Char} (goesOn : endsBlock line = false) :
    Record.ofLine line ≠ .sample ∧ Record.ofLine line ≠ .other := by
  refine ⟨ofLine_ne_sample (noSample_of_goesOn goesOn), fun same => ?_⟩
  have reads := reads_ofLine line
  rw [same] at reads
  cases reads with
  | other noSample isRecord => simp [endsBlock, isRecord] at goesOn
  | inner notId noSample noRecord isInner => cases isInner

namespace Reading

def onto (reading : Reading) (earlier : List Sample) : Reading :=
  { reading with closed := reading.closed ++ earlier }

theorem close_onto (reading : Reading) (earlier : List Sample) :
    (reading.onto earlier).close = reading.close ++ earlier := by
  simp [onto, close]

theorem step_onto (reading : Reading) (earlier : List Sample) (record : Record) :
    (reading.onto earlier).step record = (reading.step record).onto earlier := by
  obtain ⟨closed, opened, inCallchain, waiting, buildIds⟩ := reading
  cases record with
  | fileName path => cases waiting <;> rfl
  | file dso => cases inCallchain <;> rfl
  | symbol name => cases inCallchain <;> rfl
  | sample | other => simp [step, onto, close]
  | buildId | callchain | nothing => rfl

theorem past_onto (reading : Reading) (earlier : List Sample) (lines : List (List Char)) :
    (reading.onto earlier).past lines = (reading.past lines).onto earlier := by
  induction lines generalizing reading with
  | nil => rfl
  | cons line rest ih => rw [past_cons, past_cons, step_onto, ih]

theorem shown_past {reading other : Reading} (same : reading.shown = other.shown)
    (lines : List (List Char)) : (reading.past lines).shown = (other.past lines).shown := by
  induction lines generalizing reading other with
  | nil => exact same
  | cons line rest ih => exact ih (shown_step same _)

theorem close_of_shown {reading other : Reading} (same : reading.shown = other.shown) :
    reading.close = other.close := by
  obtain ⟨closed, opened, -⟩ : _ ∧ _ ∧ _ := by simpa only [shown, Prod.mk.injEq] using same
  rw [close, close, closed, opened]

theorem close_past_of_endsBlock (reading : Reading) {line : List Char}
    (ends : endsBlock line = true) (rest : List (List Char)) :
    (reading.past (line :: rest)).close = (start.past (line :: rest)).close ++ reading.close := by
  have begun : (reading.step (Record.ofLine line)).shown =
      ((start.step (Record.ofLine line)).onto reading.close).shown := by
    rcases ofLine_of_endsBlock ends with same | same <;> rw [same] <;> rfl
  rw [past_cons, past_cons, close_of_shown (shown_past begun rest), past_onto, close_onto]

theorem step_unopened (reading : Reading) (unopened : reading.opened = none) {record : Record}
    (noSample : record ≠ .sample) :
    (reading.step record).opened = none ∧ (reading.step record).closed = reading.closed := by
  obtain ⟨closed, opened, inCallchain, waiting, buildIds⟩ := reading
  obtain rfl : opened = none := unopened
  cases record with
  | sample => exact absurd rfl noSample
  | fileName path => cases waiting <;> exact ⟨rfl, rfl⟩
  | file dso => cases inCallchain <;> exact ⟨rfl, rfl⟩
  | symbol name => cases inCallchain <;> exact ⟨rfl, rfl⟩
  | buildId | other | callchain | nothing => exact ⟨rfl, rfl⟩

theorem past_unopened (reading : Reading) (unopened : reading.opened = none)
    (lines : List (List Char)) (noSample : ∀ line ∈ lines, isSampleLine line = false) :
    (reading.past lines).close = reading.closed := by
  induction lines generalizing reading with
  | nil => simp [close, unopened]
  | cons line rest ih =>
    obtain ⟨still, closed⟩ := reading.step_unopened unopened
      (ofLine_ne_sample (noSample line (by simp)))
    rw [past_cons, ih _ still fun later member => noSample later (by simp [member]), closed]

theorem step_goesOn (reading : Reading) {line : List Char} (goesOn : endsBlock line = false) :
    (reading.step (Record.ofLine line)).opened.isSome = reading.opened.isSome ∧
      (reading.step (Record.ofLine line)).closed = reading.closed := by
  obtain ⟨noSample, noOther⟩ := ofLine_of_goesOn goesOn
  generalize Record.ofLine line = record at noSample noOther
  obtain ⟨closed, opened, inCallchain, waiting, buildIds⟩ := reading
  cases record with
  | sample => exact absurd rfl noSample
  | other => exact absurd rfl noOther
  | fileName path => cases waiting <;> exact ⟨rfl, rfl⟩
  | file dso => cases inCallchain <;> exact ⟨Option.isSome_map, rfl⟩
  | symbol name => cases inCallchain <;> exact ⟨Option.isSome_map, rfl⟩
  | buildId | callchain | nothing => exact ⟨rfl, rfl⟩

theorem past_goesOn (reading : Reading) (lines : List (List Char))
    (goesOn : ∀ line ∈ lines, endsBlock line = false) :
    (reading.past lines).opened.isSome = reading.opened.isSome ∧
      (reading.past lines).closed = reading.closed := by
  induction lines generalizing reading with
  | nil => exact ⟨rfl, rfl⟩
  | cons line rest ih =>
    obtain ⟨opened, closed⟩ := reading.step_goesOn (goesOn line (by simp))
    obtain ⟨opened', closed'⟩ := ih (reading.step (Record.ofLine line))
      fun later member => goesOn later (by simp [member])
    exact ⟨opened'.trans opened, closed'.trans closed⟩

end Reading

def samplesOf (lines : List (List Char)) : List Sample := (Reading.start.past lines).close.reverse

theorem samples_joined {text : String} {kept : List (List Char)}
    (sublist : kept.Sublist (fullLines text.toList)) :
    (Report.parse (joined kept)).samples = samplesOf kept := by
  rw [parse_eq, fullLines_joined sublist]
  rfl

theorem samples_eq (text : String) :
    (Report.parse text).samples = samplesOf (fullLines text.toList) := by
  rw [parse_eq]
  rfl

theorem samplesOf_append (front : List (List Char)) {rest : List (List Char)}
    (ends : ∀ line ∈ rest.head?, endsBlock line = true) :
    samplesOf (front ++ rest) = samplesOf front ++ samplesOf rest := by
  cases rest with
  | nil => simp [samplesOf, Reading.start, Reading.close]
  | cons line rest =>
    rw [samplesOf, Reading.past_append, Reading.close_past_of_endsBlock _ (ends line rfl),
      List.reverse_append]
    rfl

theorem samplesOf_of_noSample {lines : List (List Char)}
    (noSample : ∀ line ∈ lines, isSampleLine line = false) : samplesOf lines = [] := by
  rw [samplesOf, Reading.start.past_unopened rfl lines noSample]
  rfl

theorem samplesOf_blockAt {line : List Char} (sample : isSampleLine line = true)
    (rest : List (List Char)) : ∃ only, samplesOf (blockAt line rest) = [only] := by
  obtain ⟨opened, closed⟩ := (Reading.start.step .sample).past_goesOn _ (goesOn_inside rest)
  obtain ⟨only, isOpen⟩ := Option.isSome_iff_exists.1 opened
  refine ⟨only, ?_⟩
  rw [samplesOf, blockAt, Reading.past_cons, ofLine_eq_sample sample, Reading.close, isOpen, closed]
  rfl

theorem samplesOf_cons (line : List Char) (rest : List (List Char)) :
    samplesOf (line :: rest) = samplesOf (blockAt line rest) ++ samplesOf rest := by
  let block := rest.takeWhile fun later => !endsBlock later
  let others := rest.dropWhile fun later => !endsBlock later
  have split : rest = block ++ others := (List.takeWhile_append_dropWhile).symm
  have ends : ∀ line ∈ others.head?, endsBlock line = true := fun line head => by
    have stops := List.head?_dropWhile_not (fun later => !endsBlock later) rest
    rw [Option.mem_def.1 head] at stops
    simpa using stops
  have silent : samplesOf block = [] :=
    samplesOf_of_noSample fun later member => noSample_of_goesOn (goesOn_inside rest later member)
  calc samplesOf (line :: rest) = samplesOf (blockAt line rest ++ others) := by
        rw [blockAt, List.cons_append, ← split]
    _ = samplesOf (blockAt line rest) ++ samplesOf others := samplesOf_append _ ends
    _ = samplesOf (blockAt line rest) ++ samplesOf (block ++ others) := by
        rw [samplesOf_append _ ends, silent, List.nil_append]
    _ = samplesOf (blockAt line rest) ++ samplesOf rest := by rw [← split]

theorem samplesOf_blocks (lines : List (List Char)) :
    samplesOf lines = (blocks lines).flatMap samplesOf := by
  induction lines with
  | nil => rfl
  | cons line rest ih =>
    rw [samplesOf_cons, blocks, ih]
    split
    · rfl
    next noSample =>
      have silent : samplesOf (blockAt line rest) = [] := by
        refine samplesOf_of_noSample fun later member => ?_
        rcases List.mem_cons.1 member with rfl | inside
        · simpa using noSample
        · exact noSample_of_goesOn (goesOn_inside rest later inside)
      rw [silent, List.nil_append]

theorem samplesOf_flatten_blocks (lines : List (List Char)) :
    samplesOf (blocks lines).flatten = (blocks lines).flatMap samplesOf := by
  induction lines with
  | nil => rfl
  | cons line rest ih =>
    have ends : ∀ line ∈ (blocks rest).flatten.head?, endsBlock line = true := fun line head => by
      simp [endsBlock, isSampleLine_head_blocks rest line head]
    rw [blocks]
    split
    · rw [List.flatten_cons, samplesOf_append _ ends, ih, List.flatMap_cons]
    · exact ih

theorem samplesOf_of_mem {lines block : List (List Char)} (member : block ∈ blocks lines) :
    ∃ only, samplesOf block = [only] := by
  induction lines with
  | nil => cases member
  | cons line rest ih =>
    rw [blocks] at member
    split at member
    next sample =>
      rcases List.mem_cons.1 member with rfl | later
      · exact samplesOf_blockAt sample rest
      · exact ih later
    next => exact ih member

theorem map_singleton_flatMap {α β : Type} (f : α → List β) (items : List α)
    (single : ∀ item ∈ items, ∃ only, f item = [only]) :
    (items.flatMap f).map (fun only => [only]) = items.map f := by
  induction items with
  | nil => rfl
  | cons item rest ih =>
    obtain ⟨only, same⟩ := single item (by simp)
    have further := ih fun other member => single other (by simp [member])
    simp [same, further]

theorem ofLine_blank {line : List Char} (blank : trim line = []) :
    Record.ofLine line = .nothing := by
  simp only [Record.ofLine, blank]
  cases isIndented line <;> rfl

theorem Reading.close_past_records (reading : Reading) (lines : List (List Char))
    (first : ∀ line ∈ lines.find? fun line => !(trim line).isEmpty, isRecordLine line = true)
    (noSample : ∀ line ∈ lines, isSampleLine line = false) :
    (reading.past lines).close = reading.close := by
  induction lines generalizing reading with
  | nil => rfl
  | cons line rest ih =>
    by_cases blank : trim line = []
    · rw [List.find?_cons_of_neg (by simp [blank])] at first
      rw [past_cons, ofLine_blank blank]
      exact ih _ first fun later member => noSample later (by simp [member])
    · rw [List.find?_cons_of_pos (by simp [blank])] at first
      have ends : endsBlock line = true := by simp [endsBlock, first line rfl]
      have silent := Reading.start.past_unopened rfl _ noSample
      rw [close_past_of_endsBlock _ ends, silent]
      rfl

theorem past_newline {lines : List (List Char)} (areLines : AreLines lines) (more : List Char) :
    ∃ ended, fullLines (lines.flatten ++ '\n' :: more) = ended ++ fullLines more ∧
      ∀ reading : Reading, reading.past ended = reading.past lines := by
  induction areLines with
  | none => exact ⟨[['\n']], fullLines_newline [] more (by simp), fun _ => rfl⟩
  | @last line notEmpty clear =>
    refine ⟨[line ++ ['\n']], ?_, fun reading => ?_⟩
    · simpa using fullLines_newline line more clear
    · rw [Reading.past_cons, Reading.past_cons, ofLine_append (by decide)]
  | @ended front rest clear further ih =>
    obtain ⟨ended, lines, same⟩ := ih
    refine ⟨(front ++ ['\n']) :: ended, ?_, fun reading => ?_⟩
    · rw [List.flatten_cons, List.append_assoc, List.append_assoc, List.singleton_append,
        fullLines_newline _ _ clear, lines, List.cons_append]
    · rw [Reading.past_cons, same, Reading.past_cons]

theorem samples_append (text more : String)
    (first : ∀ line ∈ (fullLines more.toList).find? fun line => !(trim line).isEmpty,
      isRecordLine line = true)
    (noSample : ∀ line ∈ fullLines more.toList, isSampleLine line = false) :
    (Report.parse (text ++ "\n" ++ more)).samples = (Report.parse text).samples := by
  obtain ⟨ended, lines, same⟩ := past_newline (areLines_fullLines text.toList) more.toList
  have read : fullLines (text ++ "\n" ++ more).toList = ended ++ fullLines more.toList := by
    rw [← lines, flatten_fullLines]
    simp
  rw [samples_eq, samples_eq, samplesOf, samplesOf, read, Reading.past_append,
    Reading.close_past_records _ _ first noSample, same]

/-- There is a sample for each line that opens one, and it is the sample of its block alone; other
lines add nothing to it. So records of another kind can follow a text. -/
theorem parse_blocks (text : String) :
    let found := blocks (fullLines text.toList)
    let samples := (Report.parse text).samples
    samples.length = (fullLines text.toList).countP isSampleLine ∧
      samples.map (fun sample => [sample]) =
        found.map (fun block => (Report.parse (joined block)).samples) ∧
      (Report.parse (joined found.flatten)).samples = samples ∧
      ∀ more : String,
        (∀ line ∈ (fullLines more.toList).find? fun line => !(trim line).isEmpty,
          isRecordLine line = true) →
        (∀ line ∈ fullLines more.toList, isSampleLine line = false) →
        (Report.parse (text ++ "\n" ++ more)).samples = samples := by
  intro found samples
  have all : samples = found.flatMap samplesOf := (samples_eq text).trans (samplesOf_blocks _)
  have each :
      found.map (fun block => (Report.parse (joined block)).samples) = found.map samplesOf :=
    List.map_congr_left fun block member => samples_joined (sublist_of_mem_blocks member)
  have single : samples.map (fun sample => [sample]) = found.map samplesOf := by
    rw [all]
    exact map_singleton_flatMap samplesOf found fun block member => samplesOf_of_mem member
  refine ⟨?_, single.trans each.symm, ?_, samples_append text⟩
  · rw [← length_blocks, ← List.length_map (f := fun sample => [sample]), single, List.length_map]
  · rw [samples_joined (flatten_blocks_sublist _), samplesOf_flatten_blocks, all]

theorem parse_blocks_sample :
    let text := "sample:\n file: /a\nfilename /a\n symbol: f\nlost:\n file: /b\n\n" ++
      "  sample:\n callchain:\n file: /c"
    let more := " \nlost:\n file: /d\nbuild_id 1"
    (Report.parse text).samples.length = 2 ∧
      (Report.parse (text ++ "\n" ++ more)).samples = (Report.parse text).samples := by
  intro text more
  obtain ⟨count, -, -, follows⟩ := parse_blocks text
  exact ⟨count.trans (by decide), follows more (by decide) (by decide)⟩

end BuildIdCache.Trace
