import BuildIdCache.Proofs.Trace.Dump

set_option autoImplicit false

namespace BuildIdCache.Trace

variable {σ : Type}

section Opening

variable (tools : Tools σ) (env : Environment) (profiler : Option Path) (path : Path)
  (world : World σ)

inductive Unopenable : Prop
  | unread {e : IoError} (unread : world.files.read path = .error e)
  | noProfiler {content : ByteArray} (read : world.files.read path = .ok content)
    (isRecord : recordFileMagic <+: content.data.toList)
    (missing : profiler.or (env.find? world.files profilerName) = none)
  | failing {content : ByteArray} {tool : Path} (read : world.files.read path = .ok content)
    (isRecord : recordFileMagic <+: content.data.toList)
    (found : profiler.or (env.find? world.files profilerName) = some tool)
    (fails : tools.Fails tool world (dumpCalls path))

variable {tools env profiler path world}

theorem Unopenable.recordText (unopenable : Unopenable tools env profiler path world) :
    ∃ e after, recordText tools env profiler path world = (.error e, after) := by
  cases unopenable with
  | unread unread =>
    have noFile : world.files.isFile path = false := by
      rw [Bool.eq_false_iff, ne_eq, FileSystem.isFile_iff]
      rintro ⟨content, read⟩
      cases unread.symm.trans read
    have asked : (Action.isFile path : Action σ Bool) world = (.ok false, world) := by
      rw [← noFile]
      rfl
    rw [Trace.recordText, Action.bind_of_ok _ _ _ _ _ asked]
    exact ⟨_, _, rfl⟩
  | noProfiler read isRecord missing =>
    have listed : (Action.files : Action σ FileSystem) world = (.ok world.files, world) := rfl
    rw [recordText_of_read read, if_pos isRecord, dumpText, Action.bind_of_ok _ _ _ _ _ listed,
      missing]
    exact ⟨_, _, rfl⟩
  | failing read isRecord found fails =>
    rw [recordText_of_read read, if_pos isRecord, dumpText_of_found found]
    exact foldlM_of_fails fails ""

variable (tools env profiler path world)

theorem recordText_or_unopenable :
    (∃ text after, recordText tools env profiler path world = (.ok text, after)) ∨
      Unopenable tools env profiler path world := by
  cases read : world.files.read path with
  | error e => exact .inr (.unread read)
  | ok content =>
    by_cases isRecord : recordFileMagic <+: content.data.toList
    · cases found : profiler.or (env.find? world.files profilerName) with
      | none => exact .inr (.noProfiler read isRecord found)
      | some tool =>
        rcases tools.prints_or_fails tool (dumpCalls path) world with ⟨outputs, after, prints⟩
          | fails
        · exact .inl ⟨_, _, recordText_of_prints read isRecord found prints⟩
        · exact .inr (.failing read isRecord found fails)
    · refine .inl ⟨decodeLossy content, world, ?_⟩
      rw [recordText_of_read read, if_neg isRecord]

end Opening

/-- The sample that is reached by advancing some number of times. -/
def Report.exposed (report : Report) : Nat → Option Sample
  | 0 => none
  | k + 1 => report.samples[k]?

namespace Reader

inductive Call
  | loadText (text : String)
  | openTrace (path : Path)
  | advance
  | symbol
  | callchain

inductive Answer
  | done
  | failed (e : CacheError)
  | advanced (more : Bool)
  | symbol (frame : Option Frame)
  | callchain (frames : List Frame)

def Call.isAdvance : Call → Bool
  | .advance => true
  | _ => false

section Calls

variable (tools : Tools σ) (env : Environment)

def call (reader : Reader) (world : World σ) : Call → Answer × Reader
  | .loadText text => (.done, reader.loadText text)
  | .openTrace path =>
    match (setRecordFile tools env path reader world).1 with
    | (.ok (), left) => (.done, left)
    | (.error e, left) => (.failed e, left)
  | .advance => (.advanced reader.advance.1, reader.advance.2)
  | .symbol => (.symbol reader.symbol?, reader)
  | .callchain => (.callchain reader.callchain, reader)

def callAll (reader : Reader) (calls : List (World σ × Call)) : Reader :=
  calls.foldl (fun reader asked => (reader.call tools env asked.1 asked.2).2) reader

def loaded? (profiler : Option Path) : World σ × Call → Option String
  | (_, .loadText text) => some text
  | (world, .openTrace path) => (recordText tools env profiler path world).1.toOption
  | (_, .advance) | (_, .symbol) | (_, .callchain) => none

/-- The calls since a text was loaded, and what was read of it; at first, that is nothing. -/
inductive Since (profiler : Option Path) :
    List (World σ × Call) → Report → List (World σ × Call) → Prop
  | new {calls : List (World σ × Call)}
    (others : ∀ asked ∈ calls, loaded? tools env profiler asked = none) :
    Since profiler calls .empty calls
  | loaded {before between : List (World σ × Call)} {asked : World σ × Call} {text : String}
    (loads : loaded? tools env profiler asked = some text)
    (others : ∀ later ∈ between, loaded? tools env profiler later = none) :
    Since profiler (before ++ asked :: between) (.parse text) between

variable {tools env} {reader : Reader}

theorem call_cases (tools : Tools σ) (env : Environment) (reader : Reader)
    (asked : World σ × Call) :
    (∃ text, loaded? tools env reader.profiler asked = some text ∧
      (reader.call tools env asked.1 asked.2).2 = reader.loadText text) ∨
    loaded? tools env reader.profiler asked = none ∧
      (reader.call tools env asked.1 asked.2).2 =
        if asked.2.isAdvance then reader.advance.2 else reader := by
  obtain ⟨world, asked⟩ := asked
  cases asked with
  | loadText text => exact .inl ⟨text, rfl, rfl⟩
  | openTrace path =>
    rcases read : recordText tools env reader.profiler path world with ⟨e | text, after⟩
    · refine .inr ⟨by simp [loaded?, read, Except.toOption], ?_⟩
      simp [call, setRecordFile_eq, read, Call.isAdvance]
    · refine .inl ⟨text, by simp [loaded?, read, Except.toOption], ?_⟩
      simp [call, setRecordFile_eq, read]
  | advance | symbol | callchain => exact .inr ⟨rfl, rfl⟩

structure Stands (reader : Reader) (found : Report) (count : Nat) : Prop where
  report : reader.report = found
  next : reader.next = min count found.samples.length
  current : reader.current =
    if 0 < count ∧ count ≤ found.samples.length then some (count - 1) else none

theorem new_stands (profiler : Option Path) : (new profiler).Stands .empty 0 :=
  ⟨rfl, rfl, rfl⟩

theorem loadText_stands (reader : Reader) (text : String) :
    (reader.loadText text).Stands (.parse text) 0 :=
  ⟨rfl, by simp [loadText], rfl⟩

namespace Stands

variable {report : Report} {count : Nat}

theorem lt_samples (stands : reader.Stands report count) {i : Nat} (here : i ∈ reader.current) :
    i < reader.report.samples.length := by
  rw [stands.current] at here
  rw [stands.report]
  split at here
  · cases here
    omega
  · cases here

theorem more_iff (stands : reader.Stands report count) :
    reader.next < reader.sampleCount ↔ count < report.samples.length := by
  rw [sampleCount, stands.report, stands.next]
  omega

theorem advance_eq (stands : reader.Stands report count) :
    reader.advance.1 = decide (count < report.samples.length) := by
  by_cases more : count < report.samples.length <;>
    simp [Reader.advance, stands.more_iff, more]

theorem advance (stands : reader.Stands report count) :
    reader.advance.2.Stands report (count + 1) := by
  have next := stands.next
  by_cases more : count < report.samples.length
  · have inside : count + 1 ≤ report.samples.length := more
    have here : reader.next = count := by omega
    refine ⟨?_, ?_, ?_⟩ <;> simp only [Reader.advance, stands.more_iff, more, if_true]
    · exact stands.report
    · omega
    · simp [here, inside]
  · have past : ¬(count + 1 ≤ report.samples.length) := more
    refine ⟨?_, ?_, ?_⟩ <;> simp only [Reader.advance, stands.more_iff, more, if_false]
    · exact stands.report
    · omega
    · simp [past]

theorem sample?_eq (stands : reader.Stands report count) :
    reader.sample? = report.exposed count := by
  rw [sample?, stands.report, stands.current]
  cases count with
  | zero => rfl
  | succ k =>
    by_cases inside : k + 1 ≤ report.samples.length
    · simp [Report.exposed, inside]
    · have past : report.samples[k]? = none := List.getElem?_eq_none (by omega)
      simp [Report.exposed, inside, past]

end Stands

@[simp]
theorem callAll_nil (reader : Reader) : reader.callAll tools env [] = reader := rfl

@[simp]
theorem callAll_cons (reader : Reader) (asked : World σ × Call) (calls : List (World σ × Call)) :
    reader.callAll tools env (asked :: calls) =
      (reader.call tools env asked.1 asked.2).2.callAll tools env calls := rfl

@[simp]
theorem callAll_append (reader : Reader) (calls later : List (World σ × Call)) :
    reader.callAll tools env (calls ++ later) =
      (reader.callAll tools env calls).callAll tools env later := List.foldl_append

@[simp]
theorem profiler_callAll (reader : Reader) (calls : List (World σ × Call)) :
    (reader.callAll tools env calls).profiler = reader.profiler := by
  induction calls generalizing reader with
  | nil => rfl
  | cons asked rest ih =>
    rw [callAll_cons, ih]
    rcases call_cases tools env reader asked with ⟨text, -, same⟩ | ⟨-, same⟩
    · rw [same]
      rfl
    · rw [same]
      split
      · rw [advance]
        split <;> rfl
      · rfl

theorem Stands.callAll {report : Report} {count : Nat} (stands : reader.Stands report count)
    (calls : List (World σ × Call))
    (others : ∀ asked ∈ calls, loaded? tools env reader.profiler asked = none) :
    (reader.callAll tools env calls).Stands report
      (count + calls.countP fun asked => asked.2.isAdvance) := by
  -- From the last call on: what is known of the reader is known of the one that the others left.
  induction calls using List.reverseRecOn with
  | nil => exact stands
  | append_singleton calls asked ih =>
    have before := ih fun other member => others other (by simp [member])
    have silent : loaded? tools env (reader.callAll tools env calls).profiler asked = none := by
      rw [profiler_callAll]
      exact others asked (by simp)
    rcases call_cases tools env (reader.callAll tools env calls) asked with ⟨text, loads, -⟩
      | ⟨-, same⟩
    · cases silent.symm.trans loads
    · rw [callAll_append, callAll_cons, same, List.countP_append, ← Nat.add_assoc]
      cases isAdvance : asked.2.isAdvance with
      | true => simpa [isAdvance] using before.advance
      | false => simpa [isAdvance] using before

theorem stands_since {profiler : Option Path} {calls between : List (World σ × Call)}
    {report : Report} (since : Since tools env profiler calls report between) :
    ((new profiler).callAll tools env calls).Stands report
      (between.countP fun asked => asked.2.isAdvance) := by
  cases since with
  | new others => simpa using (new_stands profiler).callAll calls others
  | @loaded before _ asked text loads others =>
    let reader := (new profiler).callAll tools env before
    have kept : reader.profiler = profiler := profiler_callAll _ _
    have begun : (reader.call tools env asked.1 asked.2).2 = reader.loadText text := by
      rcases call_cases tools env reader asked with ⟨text', loads', same⟩ | ⟨silent, -⟩
      · rw [kept, loads] at loads'
        rw [same, Option.some.inj loads']
      · rw [kept, loads] at silent
        cases silent
    have stands := (reader.loadText_stands text).callAll between (by
      show ∀ later ∈ between, loaded? tools env reader.profiler later = none
      rwa [kept])
    rw [callAll_append, callAll_cons, begun]
    simpa using stands

theorem since_exists (tools : Tools σ) (env : Environment) (profiler : Option Path)
    (calls : List (World σ × Call)) :
    ∃ report between, Since tools env profiler calls report between := by
  induction calls using List.reverseRecOn with
  | nil => exact ⟨_, _, .new (by simp)⟩
  | append_singleton calls asked ih =>
    obtain ⟨report, between, since⟩ := ih
    cases loads : loaded? tools env profiler asked with
    | some text => exact ⟨_, _, .loaded loads (by simp)⟩
    | none =>
      have further {earlier : List (World σ × Call)}
          (others : ∀ other ∈ earlier, loaded? tools env profiler other = none) :
          ∀ other ∈ earlier ++ [asked], loaded? tools env profiler other = none := by
        simpa [or_imp, forall_and, loads] using others
      cases since with
      | new others => exact ⟨_, _, .new (further others)⟩
      | loaded loads' others =>
        rw [List.append_assoc, List.cons_append]
        exact ⟨_, _, .loaded loads' (further others)⟩

/-- Whatever was called, a reader stands at a sample that it has: it is the one that was reached by
the calls since a text was loaded. A trace that cannot be opened leaves the reader where it stands.
-/
theorem callAll_exposed (tools : Tools σ) (env : Environment) (profiler : Option Path)
    (calls : List (World σ × Call)) :
    let reader := (new profiler).callAll tools env calls
    (∀ i ∈ reader.current, i < reader.report.samples.length) ∧
    (∃ report between, Since tools env profiler calls report between) ∧
    (∀ report between, Since tools env profiler calls report between →
      let count := between.countP fun asked => asked.2.isAdvance
      reader.report = report ∧ ∀ world,
        reader.call tools env world .symbol =
          (.symbol ((report.exposed count).bind Sample.frame), reader) ∧
        reader.call tools env world .callchain =
          (.callchain (((report.exposed count).map Sample.callchain).getD []), reader) ∧
        (reader.call tools env world .advance).1 =
          .advanced (decide (count < report.samples.length))) ∧
    ∀ world path, Unopenable tools env profiler path world ↔
      ∃ e, reader.call tools env world (.openTrace path) = (.failed e, reader) := by
  intro reader
  have some_since := since_exists tools env profiler calls
  refine ⟨?_, some_since, ?_, ?_⟩
  · obtain ⟨report, between, since⟩ := some_since
    exact fun i here => (stands_since since).lt_samples here
  · intro report between since count
    have stands : reader.Stands report count := stands_since since
    refine ⟨stands.report, fun world => ⟨?_, ?_, ?_⟩⟩
    · rw [call, symbol?, stands.sample?_eq]
    · rw [call, callchain, stands.sample?_eq]
      cases report.exposed count <;> rfl
    · rw [call, stands.advance_eq]
  · intro world path
    have kept : reader.profiler = profiler := profiler_callAll _ _
    constructor
    · intro unopenable
      obtain ⟨e, after, unread⟩ := unopenable.recordText
      rw [← kept] at unread
      exact ⟨e, by rw [call, setRecordFile_eq, unread]⟩
    · rintro ⟨e, failed⟩
      refine (recordText_or_unopenable tools env profiler path world).resolve_left ?_
      rintro ⟨text, after, read⟩
      rw [← kept] at read
      rw [call, setRecordFile_eq, read] at failed
      cases failed

theorem callAll_exposed_sample :
    let world := Sample.recorded
    let text := "sample:\n file: /a\nsample:"
    let calls := [(world, .loadText text), (world, .advance), (world, .openTrace (.ofString "r"))]
    let reader := (new none).callAll Sample.profiler default calls
    reader.call Sample.profiler default world .symbol = (.symbol (some ⟨"/a", none⟩), reader) ∧
      (reader.call Sample.profiler default world .advance).1 = .advanced true ∧
      ∃ e, reader.call Sample.profiler default world (.openTrace (.ofString "r")) =
        (.failed e, reader) := by
  intro world text calls reader
  have read : world.files.read (.ofString "r") = .ok Sample.record := by cbv
  have unopenable : Unopenable Sample.profiler default none (.ofString "r") world :=
    .noProfiler read (by decide) rfl
  have silent :
    loaded? Sample.profiler default none (world, .openTrace (.ofString "r")) = none := by
    obtain ⟨e, after, unread⟩ := unopenable.recordText
    rw [loaded?, unread]
    rfl
  have since : Since Sample.profiler default none ([] ++ calls) _ calls.tail :=
    .loaded rfl (by simpa [calls] using ⟨rfl, silent⟩)
  obtain ⟨-, -, exposed, fails⟩ := callAll_exposed Sample.profiler default none calls
  obtain ⟨symbol, -, advance⟩ := (exposed _ _ since).2 world
  have frame : ((Report.parse text).exposed 1).bind Sample.frame = some ⟨"/a", none⟩ := by decide
  have more : decide (1 < (Report.parse text).samples.length) = true := by decide
  rw [← frame, ← more]
  exact ⟨symbol, advance, (fails _ _).1 unopenable⟩

end Calls

end Reader

end BuildIdCache.Trace
