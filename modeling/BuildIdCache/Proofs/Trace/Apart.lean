import BuildIdCache.Proofs.Trace.Kinds

set_option autoImplicit false

namespace BuildIdCache.Trace

open Text

section Lines

variable {line raw path : List Char}

theorem isIdLine_of_givesId (gives : GivesId line raw) : isIdLine line = true := by
  have marked : "build_id ".toList.isPrefixOf (trim line) = true :=
    List.isPrefixOf_iff_prefix.2 ⟨raw, gives.symm⟩
  rw [isIdLine, marked, Bool.true_or]

theorem isIdLine_of_namesFile (names : NamesFile line path) : isIdLine line = true := by
  obtain ⟨rest, read, -⟩ := names
  have marked : "filename ".toList.isPrefixOf (trim line) = true :=
    List.isPrefixOf_iff_prefix.2 ⟨rest, read.symm⟩
  rw [isIdLine, marked, Bool.or_true]

theorem not_namesFile (gives : GivesId line raw) : ¬NamesFile line path := by
  rintro ⟨rest, read, -⟩
  have starts := gives.symm.trans read
  simp at starts

theorem not_told (notId : isIdLine line = false) :
    (∀ raw, ¬GivesId line raw) ∧ ∀ path, ¬NamesFile line path :=
  ⟨fun raw gives => by simp [isIdLine_of_givesId gives] at notId,
    fun path names => by simp [isIdLine_of_namesFile names] at notId⟩

theorem givesId_inj {other : List Char} (gives : GivesId line raw) (gives' : GivesId line other) :
    raw = other :=
  List.append_cancel_left (gives.symm.trans gives')

theorem namesFile_inj {other : List Char} (names : NamesFile line path)
    (names' : NamesFile line other) : path = other := by
  obtain ⟨rest, read, rfl⟩ := names
  obtain ⟨rest', read', rfl⟩ := names'
  rw [List.append_cancel_left (read.symm.trans read')]

theorem id_cases (line : List Char) :
    (∃ raw, GivesId line raw ∧
      Record.ofLine line = .buildId (BuildId.normalize (String.ofList raw))) ∨
    (∃ path, NamesFile line path ∧ Record.ofLine line = .fileName (String.ofList path)) ∨
    isIdLine line = false ∧ Reading.IsQuiet (Record.ofLine line) := by
  have reads := reads_ofLine line
  generalize Record.ofLine line = record at reads
  cases reads with
  | buildId gives => exact .inl ⟨_, gives, rfl⟩
  | fileName names => exact .inr (.inl ⟨_, names, rfl⟩)
  | sample notId => exact .inr (.inr ⟨notId, by simp [Reading.IsQuiet]⟩)
  | other noSample isRecord =>
    simp only [isRecordLine, Bool.and_eq_true, Bool.not_eq_true'] at isRecord
    exact .inr (.inr ⟨isRecord.2, by simp [Reading.IsQuiet]⟩)
  | inner notId noSample noRecord isInner =>
    refine .inr (.inr ⟨notId, ?_, ?_⟩) <;> rintro other rfl <;> cases isInner

end Lines

namespace Reading

def shown (reading : Reading) : List Sample × Option Sample × Bool :=
  (reading.closed, reading.opened, reading.inCallchain)

theorem shown_step {reading other : Reading} (same : reading.shown = other.shown)
    (record : Record) :
    (reading.step record).shown = (other.step record).shown := by
  obtain ⟨closed, opened, inCallchain, waiting, buildIds⟩ := reading
  obtain ⟨closed', opened', inCallchain', waiting', buildIds'⟩ := other
  obtain ⟨rfl, rfl, rfl⟩ : closed = closed' ∧ opened = opened' ∧ inCallchain = inCallchain' := by
    simpa [shown] using same
  cases record with
  | fileName path => cases waiting <;> cases waiting' <;> rfl
  | file dso => cases inCallchain <;> rfl
  | symbol name => cases inCallchain <;> rfl
  | buildId | sample | other | callchain | nothing => rfl

theorem shown_told (reading : Reading) (line : List Char) (told : isIdLine line = true) :
    (reading.step (Record.ofLine line)).shown = reading.shown := by
  rcases id_cases line with ⟨raw, -, same⟩ | ⟨path, -, same⟩ | ⟨notId, -⟩
  · rw [same]
    rfl
  · rw [same, step]
    split <;> rfl
  · simp [told] at notId

theorem known_told {reading other : Reading} (same : reading.known = other.known)
    (record : Record) :
    (reading.step record).known = (other.step record).known := by
  by_cases quiet : IsQuiet record
  · rw [known_step _ quiet, known_step _ quiet, same]
  · obtain ⟨waits, recorded⟩ :
        reading.waiting = other.waiting ∧ reading.buildIds = other.buildIds := by
      simpa [known] using same
    cases record with
    | buildId id => simp [step, known, recorded]
    | fileName path =>
      simp only [step, waits, recorded]
      split <;> simp [known, waits, recorded]
    | _ => simp [IsQuiet] at quiet

theorem known_quiet (reading : Reading) (line : List Char) (notId : isIdLine line = false) :
    (reading.step (Record.ofLine line)).known = reading.known := by
  obtain ⟨noId, noName⟩ := not_told notId
  rcases id_cases line with ⟨raw, gives, -⟩ | ⟨path, names, -⟩ | ⟨-, quiet⟩
  · exact absurd gives (noId raw)
  · exact absurd names (noName path)
  · exact reading.known_step quiet

end Reading

/-- A build-id that no file has taken: it is the latest, and no file is named behind it. -/
def Waits (lines : List (List Char)) (raw : List Char) : Prop :=
  ∃ before line after, lines = before ++ line :: after ∧ GivesId line raw ∧
    (∀ later ∈ after, ∀ other, ¬GivesId later other) ∧
      ∀ later ∈ after, ∀ path, ¬NamesFile later path

def Untaken (lines : List (List Char)) (path : List Char) : Prop :=
  ∀ before line after, lines = before ++ line :: after → NamesFile line path →
    ∀ raw, ¬Waits before raw

/-- The first line that names a file and finds a build-id that waits takes that for it. -/
def FirstTaken (lines : List (List Char)) (path raw : List Char) : Prop :=
  ∃ before line after, lines = before ++ line :: after ∧ NamesFile line path ∧ Waits before raw ∧
    Untaken before path

theorem concat_eq_split {α : Type} (front before after : List α) (last item : α) :
    front ++ [last] = before ++ item :: after ↔
      (before = front ∧ item = last ∧ after = []) ∨
        ∃ more, after = more ++ [last] ∧ front = before ++ item :: more := by
  constructor
  · intro same
    cases after using List.reverseRecOn with
    | nil =>
      obtain ⟨fronts, lasts⟩ := List.append_inj' same rfl
      exact .inl ⟨fronts.symm, (List.singleton_inj.1 lasts).symm, rfl⟩
    | append_singleton more final =>
      have split : front ++ [last] = (before ++ item :: more) ++ [final] := by simpa using same
      obtain ⟨fronts, lasts⟩ := List.append_inj' split rfl
      exact .inr ⟨more, by rw [List.singleton_inj.1 lasts], fronts⟩
  · rintro (⟨rfl, rfl, rfl⟩ | ⟨more, rfl, rfl⟩) <;> simp

section Takes

variable (front : List (List Char)) (line path raw : List Char)

theorem waits_concat : Waits (front ++ [line]) raw ↔ GivesId line raw ∨
    Waits front raw ∧ (∀ other, ¬GivesId line other) ∧ ∀ path, ¬NamesFile line path := by
  constructor
  · rintro ⟨before, item, after, split, gives, latest, untaken⟩
    rcases (concat_eq_split front before after line item).1 split with
      ⟨rfl, rfl, rfl⟩ | ⟨more, rfl, rfl⟩
    · exact .inl gives
    · refine .inr ⟨⟨before, item, more, rfl, gives, ?_, ?_⟩, latest line (by simp),
        untaken line (by simp)⟩
      · exact fun later member => latest later (by simp [member])
      · exact fun later member => untaken later (by simp [member])
  · rintro (gives | ⟨⟨before, item, after, rfl, gives, latest, untaken⟩, noId, noName⟩)
    · exact ⟨front, line, [], rfl, gives, by simp, by simp⟩
    · refine ⟨before, item, after ++ [line], by simp, gives, ?_, ?_⟩
      · simpa [or_imp, forall_and] using ⟨latest, noId⟩
      · simpa [or_imp, forall_and] using ⟨untaken, noName⟩

theorem untaken_concat : Untaken (front ++ [line]) path ↔
    Untaken front path ∧ (NamesFile line path → ∀ raw, ¬Waits front raw) := by
  constructor
  · intro untaken
    refine ⟨fun before item after split names => ?_, untaken front line [] rfl⟩
    exact untaken before item (after ++ [line]) (by simp [split]) names
  · rintro ⟨untaken, last⟩ before item after split names
    rcases (concat_eq_split front before after line item).1 split with
      ⟨rfl, rfl, rfl⟩ | ⟨more, rfl, rfl⟩
    · exact last names
    · exact untaken before item more rfl names

theorem firstTaken_concat : FirstTaken (front ++ [line]) path raw ↔
    FirstTaken front path raw ∨ NamesFile line path ∧ Waits front raw ∧ Untaken front path := by
  constructor
  · rintro ⟨before, item, after, split, names, waits, untaken⟩
    rcases (concat_eq_split front before after line item).1 split with
      ⟨rfl, rfl, rfl⟩ | ⟨more, rfl, rfl⟩
    · exact .inr ⟨names, waits, untaken⟩
    · exact .inl ⟨before, item, more, rfl, names, waits, untaken⟩
  · rintro (⟨before, item, after, rfl, names, waits, untaken⟩ | ⟨names, waits, untaken⟩)
    · exact ⟨before, item, after ++ [line], by simp, names, waits, untaken⟩
    · exact ⟨front, line, [], rfl, names, waits, untaken⟩

theorem untaken_iff : Untaken front path ↔ ∀ raw, ¬FirstTaken front path raw := by
  induction front using List.reverseRecOn with
  | nil => simp [Untaken, FirstTaken]
  | append_singleton front line ih =>
    simp only [untaken_concat, firstTaken_concat, ih, not_or, forall_and]
    constructor
    · rintro ⟨untaken, last⟩
      refine ⟨untaken, ?_⟩
      rintro raw ⟨names, waits, -⟩
      exact last names raw waits
    · rintro ⟨untaken, last⟩
      exact ⟨untaken, fun names raw waits => last raw ⟨names, waits, untaken⟩⟩

end Takes

namespace Reading

theorem waiting_past (lines : List (List Char)) (id : String) :
    (start.past lines).waiting = some id ↔
      ∃ raw, Waits lines raw ∧ BuildId.normalize (String.ofList raw) = id := by
  -- From the last line on: it gives a build-id, names a file or tells neither.
  induction lines using List.reverseRecOn with
  | nil => simp [start, Waits]
  | append_singleton front line ih =>
    simp only [past_append, past_cons, past_nil, waits_concat]
    rcases id_cases line with ⟨raw, gives, same⟩ | ⟨path, names, same⟩ | ⟨notId, quiet⟩
    · rw [same]
      constructor
      · exact fun waits => ⟨raw, .inl gives, Option.some.inj waits⟩
      · rintro ⟨other, gives' | ⟨-, noId, -⟩, rfl⟩
        · rw [givesId_inj gives gives']
          rfl
        · exact absurd gives (noId raw)
    · rw [same]
      constructor
      · intro waits
        simp only [step] at waits
        split at waits
        · cases waits
        next missing =>
          rw [missing] at waits
          cases waits
      · rintro ⟨other, gives | ⟨-, -, noName⟩, -⟩
        · exact absurd names (not_namesFile gives)
        · exact absurd names (noName path)
    · obtain ⟨noId, noName⟩ := not_told notId
      have kept : ((start.past front).step (Record.ofLine line)).waiting =
          (start.past front).waiting := congrArg Prod.fst (known_step _ quiet)
      rw [kept]
      simpa [noId, noName] using ih

theorem get?_step_fileName (reading : Reading) (name path id : String) :
    (reading.step (.fileName name)).buildIds.get? path = some id ↔
      reading.buildIds.get? path = some id ∨
        name = path ∧ reading.waiting = some id ∧ reading.buildIds.get? path = none := by
  simp only [step]
  cases reading.waiting with
  | none => simp
  | some waits =>
    simp only [SortedMap.get?_insertIfAbsent, Std.LawfulEqCmp.compare_eq_iff_eq]
    cases reading.buildIds.get? path <;> simp

theorem get?_past (lines : List (List Char)) (path id : String) :
    (start.past lines).buildIds.get? path = some id ↔
      ∃ raw, FirstTaken lines path.toList raw ∧ BuildId.normalize (String.ofList raw) = id := by
  induction lines using List.reverseRecOn generalizing id with
  | nil => simp [start, FirstTaken, SortedMap.get?_empty]
  | append_singleton front line ih =>
    simp only [past_append, past_cons, past_nil, firstTaken_concat]
    rcases id_cases line with ⟨raw, gives, same⟩ | ⟨name, names, same⟩ | ⟨notId, quiet⟩
    · have noName : ∀ path, ¬NamesFile line path := fun path => not_namesFile gives
      have kept : ((start.past front).step (Record.ofLine line)).buildIds =
          (start.past front).buildIds := by rw [same]; rfl
      rw [kept]
      simpa [noName] using ih id
    · have named : NamesFile line path.toList ↔ String.ofList name = path := by
        rw [← String.toList_inj, String.toList_ofList]
        exact ⟨namesFile_inj names, fun same => same ▸ names⟩
      -- What no earlier line took for the file is what the map has nothing for.
      have unrecorded :
        (start.past front).buildIds.get? path = none ↔ Untaken front path.toList := by
        rw [untaken_iff, Option.eq_none_iff_forall_ne_some]
        simp [ih]
      rw [same, get?_step_fileName, ih, waiting_past, unrecorded, named]
      grind
    · have noName := (not_told notId).2
      have kept : ((start.past front).step (Record.ofLine line)).buildIds =
          (start.past front).buildIds := congrArg Prod.snd (known_step _ quiet)
      rw [kept]
      simpa [noName] using ih id

end Reading

/-- Samples and build-ids are read apart from each other: samples as if there were no lines of
build-ids, and build-ids as if there were no others. A file has the first build-id that it takes. -/
theorem parse_apart (text : String) :
    (Report.parse (keepLines (fun line => !isIdLine line) text)).samples =
        (Report.parse text).samples ∧
      (Report.parse (keepLines isIdLine text)).buildIds = (Report.parse text).buildIds ∧
      ∀ path id, (Report.parse text).buildIds.get? path = some id ↔
        ∃ raw, FirstTaken (lines text.toList) path.toList raw ∧
          BuildId.normalize (String.ofList raw) = id := by
  refine ⟨?_, ?_, fun path id => Reading.get?_past _ path id⟩
  · have shown := Reading.start.view_past Reading.shown (fun line => !isIdLine line)
      (fun _ _ line same => Reading.shown_step same _)
      (fun reading line told => reading.shown_told line (by simpa using told))
      (fullLines text.toList) .start rfl
    obtain ⟨closed, opened, -⟩ : _ ∧ _ ∧ _ := by
      simpa only [Reading.shown, Prod.mk.injEq] using shown
    rw [parse_eq, parse_eq, fullLines_keepLines, Reading.close, Reading.close, closed, opened]
  · have known := Reading.start.view_past Reading.known isIdLine
      (fun _ _ line same => Reading.known_told same _)
      (fun reading line quiet => reading.known_quiet line quiet)
      (fullLines text.toList) .start rfl
    rw [parse_eq, parse_eq, fullLines_keepLines]
    exact (congrArg Prod.snd known).symm

end BuildIdCache.Trace
