import BuildIdCache.Proofs.Index.Stored
import BuildIdCache.Proofs.Source.Again
import BuildIdCache.Proofs.Source.Fresh
import BuildIdCache.Proofs.Spared

set_option autoImplicit false

namespace BuildIdCache

open FileSystem

variable {σ : Type} {reading : Reading} {binaries : RequiredBinaries}

namespace Builder

variable {builder : Builder σ} {dirs : List Path}

/-- The phases of a build behind its trace, up to the records that it stores. -/
def Filled (builder : Builder σ) (binaries : RequiredBinaries) (dirs : List Path)
    (begun : World σ) (sources : List SourceReport) (records : List IndexRecord)
    (after : World σ) : Prop :=
  ∃ copied searched pulled filled,
    builder.copyFromSearchDirs binaries dirs begun = (.ok copied, searched) ∧
    builder.pullFromDevice binaries searched = (.ok pulled, filled) ∧
    builder.storeIndex filled = (.ok records, after) ∧ sources = copied.toList ++ [pulled]

theorem filled_of_build {known : RequiredBinaries} {reader : TraceReader σ} {tracePath : Path}
    {period : Period} {world after : World σ} {report : BuildReport}
    (built : builder.build known reader tracePath dirs period world =
      ((binaries, .ok report), after)) :
    ∃ begun records, discover reader tracePath world = (.ok binaries, begun) ∧
      builder.Filled binaries dirs begun report.sources records after ∧
      report.indexEntries = records.length := by
  obtain ⟨begun, copied, searched, pulled, filled, records, discovering, copying, pulling, storing,
    sources, entries⟩ :=
      build_eq_ok builder known reader tracePath dirs period world after report built
  exact ⟨begun, records, discovering,
    ⟨copied, searched, pulled, filled, copying, pulling, storing, sources⟩, entries⟩

theorem Filled.build (known : RequiredBinaries) {reader : TraceReader σ} {tracePath : Path}
    (period : Period) {world begun after : World σ} {sources : List SourceReport}
    {records : List IndexRecord} (filled : builder.Filled binaries dirs begun sources records after)
    (discovering : discover reader tracePath world = (.ok binaries, begun)) :
    builder.build known reader tracePath dirs period world =
      ((binaries, .ok ⟨tracePath.display, builder.cache.root.display, period, binaries, sources,
        records.length⟩), after) := by
  obtain ⟨copied, searched, pulled, pulledTo, copying, pulling, storing, rfl⟩ := filled
  have filling : builder.fill binaries tracePath dirs period begun =
      (.ok ⟨tracePath.display, builder.cache.root.display, period, binaries,
        copied.toList ++ [pulled], records.length⟩, after) := by
    rw [fill, Action.bind_of_ok _ _ _ _ _ copying, Action.bind_of_ok _ _ _ _ _ pulling,
      Action.bind_of_ok _ _ _ _ _ storing]
    rfl
  rw [Builder.build, Effect.bind_apply]
  unfold ExceptT.run
  rw [discovering]
  simp only [Effect.bind_apply, filling]
  rfl

def Searched (sources : List SourceReport) (path : String) : Prop :=
  ∃ source ∈ sources, source.source = SearchDirs.sourceName ∧
    (path ∈ source.collected ∨ path ∈ source.reused)

theorem Filled.sourceNames (reads : builder.inspector.Reads reading) {world after : World σ}
    {sources : List SourceReport} {records : List IndexRecord}
    (filled : builder.Filled binaries dirs world sources records after) :
    sources.map SourceReport.source =
      if dirs = [] then [DeviceSource.sourceName]
      else [SearchDirs.sourceName, DeviceSource.sourceName] := by
  obtain ⟨copied, searched, pulled, pulledTo, copying, pulling, -, rfl⟩ := filled
  have fromDevice := (DeviceSource.ends_collect_source searched).of_ok pulling
  rcases copyFromSearchDirs_eq_ok copying with ⟨rfl, rfl, -⟩ | ⟨further, report, rfl, collecting⟩
  · simp [fromDevice]
  · have fromSearch := ((SearchDirs.ends_collect_required reads world).of_ok collecting).1
    simp [fromDevice, fromSearch, further]

theorem Filled.searched_iff (reads : builder.inspector.Reads reading)
    (distinct : builder.cache.Distinct binaries) {world after : World σ}
    (plain : world.files.PlainBelow builder.cache.root)
    (apart : ∀ dir ∈ dirs, ∃ place, world.files.Apart builder.cache.root dir place)
    {sources : List SourceReport} {records : List IndexRecord}
    (filled : builder.Filled binaries dirs world sources records after) (path : String) :
    Searched sources path ↔ ∃ expected, binaries.get? path = some expected ∧
      ∃ file, SearchDirs.Candidate reading world.files dirs path expected file := by
  obtain ⟨copied, searched, pulled, pulledTo, copying, pulling, -, rfl⟩ := filled
  have notSearched : pulled.source ≠ SearchDirs.sourceName := by
    rw [(DeviceSource.ends_collect_source searched).of_ok pulling]
    decide
  rcases copyFromSearchDirs_eq_ok copying with ⟨rfl, rfl, -⟩ | ⟨-, report, rfl, collecting⟩
  · simp [Searched, SearchDirs.Candidate, notSearched]
  · obtain ⟨source, -, listed⟩ := (SearchDirs.ends_collect_required reads world).of_ok collecting
    have reported : Searched ((some report).toList ++ [pulled]) path ↔
        path ∈ report.collected ∨ path ∈ report.reused := by
      simp [Searched, notSearched, source]
    have served : ∀ expected, binaries.get? path = some expected →
        (path ∈ report.collected ∨ path ∈ report.reused ↔
          ∃ file, SearchDirs.Candidate reading world.files dirs path expected file) :=
      fun expected required => ((SearchDirs.ends_collect_served reads distinct required plain dirs
        apart world rfl).of_ok collecting).2.reported
    rw [reported]
    constructor
    · intro isListed
      obtain ⟨expected, required⟩ := Option.isSome_iff_exists.1 (listed path isListed)
      exact ⟨expected, required, (served expected required).1 isListed⟩
    · rintro ⟨expected, required, found⟩
      exact (served expected required).2 found

theorem relists_of_copied (quiet : builder.inspector.Leaves World.files) {world searched : World σ}
    (plain : world.files.PlainBelow builder.cache.root)
    (detached : ∀ dir ∈ dirs, ∃ place, world.files.Detached builder.cache.root dir place)
    {copied : Option SourceReport}
    (copying : builder.copyFromSearchDirs binaries dirs world = (.ok copied, searched))
    {dir : Path} (member : dir ∈ dirs) {place : Location}
    (leads : world.files.resolve true dir = .ok (.dir place)) :
    Relists world.files searched.files dir place pathLimit [] := by
  rcases copyFromSearchDirs_eq_ok copying with ⟨rfl, -, -⟩ | ⟨-, report, -, collecting⟩
  · simp at member
  · exact (SearchDirs.ends_collect_relists quiet world plain detached).of_ok collecting dir member
      place leads

/-- Files in which a build finds nothing to do: the list is written, of each path the cache has what
either source could give, and so it has of the kernel symbols. -/
structure Idle (builder : Builder σ) (reading : Reading) (binaries : RequiredBinaries)
    (dirs : List Path) (isThere : Bool) (symbols : Option ByteArray) (records : List IndexRecord)
    (fs : FileSystem) : Prop where
  stored : ∃ made place, Index.Stored builder.inspector builder.cache made fs place records
  listed : ∀ dir ∈ dirs, ∃ place, fs.Apart builder.cache.root dir place ∧
    fs.listing dir pathLimit [] ≠ none
  search : SearchDirs.Idle reading builder.cache binaries dirs fs
  device : isThere = true → DeviceSource.Idle reading builder.cache binaries fs
  current : isThere = true → builder.cache.Current symbols fs

section

variable (reads : builder.inspector.Reads reading) (confined : builder.bridge.Confined)
  {lasts : σ → Prop} {isThere rooted : Bool} {symbols : Option ByteArray}
  (constant : builder.bridge.Constant
    (DeviceSource.CanMake DeviceSource.defaultChain binaries builder.cache) lasts isThere rooted
    symbols)
  (leaves : builder.inspector.Leaves fun world => lasts world.rest)

include reads confined constant leaves

theorem currentUnless_of_pulled {world searched filled : World σ} (lasting : lasts searched.rest)
    (plain : world.files.PlainBelow builder.cache.root) {copied : Option SourceReport}
    {pulled : SourceReport}
    (copying : builder.copyFromSearchDirs binaries dirs world = (.ok copied, searched))
    (pulling : builder.pullFromDevice binaries searched = (.ok pulled, filled))
    {other : FileSystem} {found : Place}
    (fits : other.resolve true builder.cache.listPath = .ok found)
    (notEmpty : builder.cache.root.bytes ≠ []) (there : isThere = true) :
    builder.cache.CurrentUnless
      (fun content => world.files.Had builder.cache.kernelSymbolsPath content ∧
        ¬∃ top, world.files.Enters builder.cache.root top)
      (if rooted then symbols else none) filled.files := by
  have begins : builder.cache.InSight (fun content =>
      world.files.Had builder.cache.kernelSymbolsPath content ∧
        ¬∃ top, world.files.Enters builder.cache.root top) world.files :=
    ⟨plain, fun content had => or_iff_not_imp_right.2 fun unseen => ⟨had, unseen⟩⟩
  have inSight := (ends_copyFromSearchDirs_closed (SearchDirs.Closed.inSight reads.leaves _)
    reads.leaves dirs world begins).of_ok copying
  exact (DeviceSource.ends_collect_current constant confined fits reads.leaves leaves notEmpty
    searched lasting inSight).of_ok pulling there

variable (separates : builder.cache.Separates binaries)

include separates

theorem idle_of_filled {world after : World σ} (lasting : lasts world.rest)
    (plain : world.files.PlainBelow builder.cache.root)
    (detached : ∀ dir ∈ dirs, ∃ place, world.files.Detached builder.cache.root dir place)
    {sources : List SourceReport} {records : List IndexRecord}
    (filled : builder.Filled binaries dirs world sources records after)
    (fresh : isThere = true → (if rooted then symbols else none) = none → ∀ content,
      world.files.Had builder.cache.kernelSymbolsPath content →
      after.files.Had builder.cache.kernelSymbolsPath content →
      ∃ top, world.files.Enters builder.cache.root top)
    (complete : isThere = true → DeviceSource.Idle reading builder.cache binaries after.files) :
    Fills world.files after.files builder.cache.root ∧ lasts after.rest ∧
      builder.Idle reading binaries dirs isThere (if rooted then symbols else none) records
        after.files := by
  obtain ⟨copied, searched, pulled, pulledTo, copying, pulling, storing, -⟩ := filled
  have quiet := reads.leaves
  have apart : ∀ dir ∈ dirs, ∃ place, world.files.Apart builder.cache.root dir place :=
    fun dir member => (detached dir member).imp fun _ isDetached => isDetached.toApart
  let keepsTo (before last : World σ) : Prop :=
    KeepsTo before.files last.files builder.cache.root (Cache.Owns binaries) fun _ => True
  -- The search.
  have searchKeeps : keepsTo world searched := (ends_copyFromSearchDirs_closed
    (SearchDirs.closed_keepsTo quiet plain fun _ => trivial) quiet dirs world (.refl _)).of_ok
      copying
  have lastingSearched := (ends_copyFromSearchDirs_closed (SearchDirs.Closed.rest leaves id) quiet
    dirs world lasting).of_ok copying
  have plainSearched := searchKeeps.steady.plainBelow plain
  -- The list, and what the device left before it was written.
  have nothing : builder.cache.Stocks (fun _ => False) (Cache.Fits reading binaries .stripped)
      searched.files := Cache.stocks_nothing plainSearched
  have plainFilled := ((DeviceSource.ends_collect confined separates.toDistinct Cache.fits_trusted
    reads _ searched nothing).of_ok pulling).2.plain
  have lastingFilled := ((DeviceSource.Closed.rest constant leaves).ends_collect searched
    lastingSearched).of_ok pulling
  obtain ⟨made, place, sprouts, stored⟩ := Index.store_stored reads.keepsFiles plainFilled storing
  have isDir := stored.steady.resolve _ _ stored.isDir
  have deviceKeeps : keepsTo searched pulledTo := (DeviceSource.ends_collect_keepsTo constant
    confined quiet searched lastingSearched plainSearched fun there =>
      (complete there).named isDir).of_ok pulling
  have storeKeeps : keepsTo pulledTo after := ((Index.closed_keepsTo quiet plainFilled
    fun _ => trivial).ends_store quiet.buildId pulledTo (.refl _)).of_ok storing
  have lastingAfter := ((Index.Closed.rest leaves id).ends_store quiet.buildId pulledTo
    lastingFilled).of_ok storing
  have laterKeeps := deviceKeeps.trans storeKeeps
  have fills := (searchKeeps.trans laterKeeps).fills
  refine ⟨fills, lastingAfter, ⟨made, place, stored⟩, fun dir member => ?_,
    SearchDirs.idle_of_stocks apart fills fun path expected required found => ?_, complete,
    fun there => ?_⟩
  · obtain ⟨top, isDetached⟩ := detached dir member
    exact ⟨top, isDetached.toApart.fills fills,
      relists_of_copied quiet plain detached copying member isDetached.leads _ laterKeeps.steady
        fun rest => fills.unclaimed _ (.inr (isDetached.clear rest))⟩
  · have stocks := ((DeviceSource.ends_collect confined separates.toDistinct
      (SearchDirs.satisfies_trusted required) reads _ searched (stocks_of_copied reads
        separates.toDistinct plain apart copying required found)).of_ok pulling).2
    refine stored.stocks sprouts stocks ?_
    rintro _ rfl
    exact separates.names_ne_list (SortedMap.contains_of_get? required)
  · obtain ⟨found, fits⟩ := made.resolve_of_target? _ _ stored.target
    have notEmpty : builder.cache.root.bytes ≠ [] := by
      intro empty
      simp [resolve, empty] at isDir
    obtain current | ⟨none, content, ⟨had, unseen⟩, stays⟩ := currentUnless_of_pulled reads confined
      constant leaves lastingSearched plain copying pulling fits notEmpty there
    · exact stored.current sprouts current
    · exact absurd (fresh there none content had
        (stored.had_kernelSymbols sprouts plainFilled stays)) unseen

end

theorem ends_copyFromSearchDirs_idle (reads : builder.inspector.Reads reading) (world : World σ)
    (idle : SearchDirs.Idle reading builder.cache binaries dirs world.files)
    (listed : ∀ dir ∈ dirs, ∃ place, world.files.resolve true dir = .ok (.dir place) ∧
      world.files.listing dir pathLimit [] ≠ none) :
    (builder.copyFromSearchDirs binaries dirs).Ends world
      (fun copied after => after.files = world.files ∧
        ∀ report ∈ copied, report.collected = [] ∧ report.failed = [])
      fun _ => False := by
  rw [copyFromSearchDirs]
  split
  · exact ⟨rfl, by simp⟩
  have collects : (SearchDirs.collect builder.inspector dirs binaries builder.cache).Ends world
      (fun report after => after.files = world.files ∧ report.collected = [] ∧ report.failed = [])
      fun _ => False :=
    ((SearchDirs.ends_collect_idle reads world idle listed).and
      (SearchDirs.ends_collect_required reads world)).mono
      (fun _ _ both => ⟨both.1.1, both.1.2, both.2.2.1⟩) fun _ never => never.1
  rw [Action.ends_bind]
  refine (SearchDirs.ends_require_listed world fun dir member =>
    (listed dir member).imp fun _ found => found.1).mono ?_ fun _ never => never
  rintro - _ rfl
  rw [Action.ends_bind]
  exact collects.mono (fun _ _ idle => ⟨idle.1, by simpa using idle.2⟩) fun _ never => never

section

variable (reads : builder.inspector.Reads reading) (confined : builder.bridge.Confined)
  {lasts : σ → Prop} {isThere rooted : Bool} {symbols : Option ByteArray}
  (constant : builder.bridge.Constant
    (DeviceSource.CanMake DeviceSource.defaultChain binaries builder.cache) lasts isThere rooted
    symbols)
  (leaves : builder.inspector.Leaves fun world => lasts world.rest) {log : σ → List Bridge.Call}
  (logs : builder.bridge.Logs log)
  (leavesLog : builder.inspector.Leaves fun world => log world.rest)

include reads confined constant leaves logs leavesLog

theorem filled_of_idle {world : World σ} {records : List IndexRecord} (lasting : lasts world.rest)
    (idle : builder.Idle reading binaries dirs isThere (if rooted then symbols else none) records
      world.files) :
    ∃ sources last, builder.Filled binaries dirs world sources records last ∧
      (∀ source ∈ sources, source.collected = [] ∧ source.failed = []) ∧
      Adds log (DeviceSource.ServiceCall builder.cache) world last ∧
      ∀ place, last.files.at? place = world.files.at? place := by
  obtain ⟨made, place, stored⟩ := idle.stored
  have plain := stored.steady.plainBelow stored.plain
  have isDir := stored.steady.resolve _ _ stored.isDir
  obtain ⟨found, fits⟩ := made.resolve_of_target? _ _ stored.target
  -- Search, device and list in turn: each finds what it needs and leaves the files to the next.
  obtain ⟨copied, searched, copying, same, noneCopied⟩ := (ends_copyFromSearchDirs_idle reads world
    idle.search fun dir member => (idle.listed dir member).imp fun _ listed =>
      ⟨listed.1.leads, listed.2⟩).of_never
  have lastingSearched := (ends_copyFromSearchDirs_closed (SearchDirs.Closed.rest leaves id)
    reads.leaves dirs world lasting).of_ok copying
  have calledSearched := (ends_copyFromSearchDirs_closed (SearchDirs.Closed.rest leavesLog
    (· = log world.rest)) reads.leaves dirs world rfl).of_ok copying
  obtain ⟨pulled, filled, pulling, nonePulled, noneFailed, unchanged⟩ :=
    (DeviceSource.ends_collect_idle constant confined reads leaves fits searched lastingSearched
      (same ▸ plain) (same ▸ isDir) (same ▸ idle.current) (same ▸ idle.device)).of_never
  have calledFilled :=
    (DeviceSource.ends_collect_calls logs leavesLog.buildId searched).of_ok pulling
  obtain ⟨last, storing, still⟩ := stored.again reads filled
    (unchanged.workingDir.trans (congrArg FileSystem.workingDir same)) fun other => by
      rw [unchanged.at?, same]
      split
      next here => rw [here]
      · rfl
  have calledStored := ((Index.Closed.rest leavesLog (· = log filled.rest)).ends_store
    reads.keepsFiles filled rfl).of_ok storing
  refine ⟨copied.toList ++ [pulled], last,
    ⟨copied, searched, pulled, filled, copying, pulling, storing, rfl⟩, ?_, ?_, still⟩
  · intro source member
    rcases List.mem_append.1 member with search | device
    · exact noneCopied source (Option.mem_toList.1 search)
    · obtain rfl := List.mem_singleton.1 device
      exact ⟨nonePulled, noneFailed⟩
  · refine (Adds.none calledSearched).trans ((calledFilled.mono ?_).trans (.none calledStored))
    rintro call (service | ⟨path, -, listed, -⟩)
    · exact service
    · simp [nonePulled, noneFailed] at listed

end

/-- The reports of two builds of which the later found nothing to do: nothing is collected and
nothing fails, and a search reuses all that it reported before. -/
structure Repeats (first next : BuildReport) : Prop where
  sources : next.sources.map SourceReport.source = first.sources.map SourceReport.source
  idle : ∀ source ∈ next.sources, source.collected = [] ∧ source.failed = []
  reused : ∀ path, (∃ source ∈ next.sources, source.source = SearchDirs.sourceName ∧
    path ∈ source.reused) ↔ Searched first.sources path
  indexEntries : next.indexEntries = first.indexEntries

/-- A second build does no work. If the paths that are asked for are trusted in the cache that a
build leaves, and the device does not change, the next build works, collects nothing, asks the
device for no required path, stores the same records, and leaves all files as they are. If the
device gives no kernel symbols, those of an earlier run that are left have to have been in sight:
where the root could not be entered at first, they stay until the second build finds them. -/
theorem build_again (builder : Builder σ) (reads : builder.inspector.Reads reading)
    (confined : builder.bridge.Confined) {lasts : σ → Prop} {isThere rooted : Bool}
    {symbols : Option ByteArray}
    (constant : builder.bridge.Constant
      (DeviceSource.CanMake DeviceSource.defaultChain binaries builder.cache) lasts isThere rooted
      symbols)
    (leaves : builder.inspector.Leaves fun world => lasts world.rest) {log : σ → List Bridge.Call}
    (logs : builder.bridge.Logs log)
    (leavesLog : builder.inspector.Leaves fun world => log world.rest)
    (reader : TraceReader σ) (keepsFiles : reader.KeepsFiles)
    (readerLeaves : reader.Leaves fun world => lasts world.rest)
    (readerLeavesLog : reader.Leaves fun world => log world.rest)
    (known knownAgain : RequiredBinaries) (tracePath : Path) (dirs : List Path)
    (period periodAgain : Period) (world after : World σ) (lasting : lasts world.rest)
    (plain : world.files.PlainBelow builder.cache.root)
    (detached : ∀ dir ∈ dirs, ∃ place, world.files.Detached builder.cache.root dir place)
    (report : BuildReport)
    (built : builder.build known reader tracePath dirs period world =
      ((binaries, .ok report), after))
    (fresh : isThere = true → (if rooted then symbols else none) = none → ∀ content,
      world.files.Had builder.cache.kernelSymbolsPath content →
      after.files.Had builder.cache.kernelSymbolsPath content →
      ∃ top, world.files.Enters builder.cache.root top)
    (separates : builder.cache.Separates binaries)
    (complete : isThere = true → DeviceSource.Idle reading builder.cache binaries after.files)
    (again : (discover reader tracePath after).1 = .ok binaries) :
    ∃ next last records,
      builder.build knownAgain reader tracePath dirs periodAgain after =
        ((binaries, .ok next), last) ∧
      Repeats report next ∧
      builder.Filled binaries dirs (discover reader tracePath world).2 report.sources records
        after ∧
      builder.Filled binaries dirs (discover reader tracePath after).2 next.sources records last ∧
      Adds log (DeviceSource.ServiceCall builder.cache) after last ∧
      ∀ place, last.files.at? place = after.files.at? place := by
  obtain ⟨begun, records, discovering, filled, entries⟩ := filled_of_build built
  have begins := (ends_discover keepsFiles tracePath world).of_ok discovering
  have lastingBegun := (ends_discover_leaves readerLeaves tracePath world).of_ok discovering
  have apart : ∀ dir ∈ dirs, ∃ place, begun.files.Apart builder.cache.root dir place :=
    fun dir member => begins ▸ (detached dir member).imp fun _ isDetached => isDetached.toApart
  rw [← begins] at plain detached fresh
  obtain ⟨fills, lastingAfter, idle⟩ := idle_of_filled reads confined constant leaves separates
    (lastingBegun ▸ lasting) plain detached filled fresh complete
  -- The second build begins with what the first one has left.
  rcases discoveringAgain : discover reader tracePath after with ⟨others, rebegun⟩
  rw [discoveringAgain] at again
  obtain rfl : others = .ok binaries := again
  have rebegins := (ends_discover keepsFiles tracePath after).of_ok discoveringAgain
  have lastingAgain :=
    (ends_discover_leaves readerLeaves tracePath after).of_ok discoveringAgain
  have calledAgain :=
    (ends_discover_leaves readerLeavesLog tracePath after).of_ok discoveringAgain
  rw [← rebegins] at fills idle
  obtain ⟨sources, last, refilled, none, called, still⟩ := filled_of_idle reads confined constant
    leaves logs leavesLog (lastingAgain ▸ lastingAfter) idle
  refine ⟨_, last, records, refilled.build knownAgain periodAgain discoveringAgain,
    ⟨?_, none, fun path => ?_, entries.symm⟩, by rwa [discovering], refilled,
    (Adds.none calledAgain).trans called, fun place => (still place).trans (by rw [rebegins])⟩
  · rw [refilled.sourceNames reads, filled.sourceNames reads]
  · have noneCollected : (∃ source ∈ sources, source.source = SearchDirs.sourceName ∧
        path ∈ source.reused) ↔ Searched sources path := by
      refine exists_congr fun source => and_congr_right fun member => ?_
      simp [(none source member).1]
    refine noneCollected.trans ?_
    rw [refilled.searched_iff reads separates.toDistinct (fills.steady.plainBelow plain)
      fun dir member => (idle.listed dir member).imp fun _ listed => listed.1,
      filled.searched_iff reads separates.toDistinct plain apart]
    simp only [SearchDirs.candidate_iff apart fills]

theorem logging_leaves {τ : Type} (view : Logged → τ)
    (others : ∀ log asked, view { log with asked := asked } = view log) :
    logging.inspector.Leaves fun world => view world.rest where
  buildId path world := by
    simp only [logging, Inspector.recorded, Inspector.ofContent, Effect.after_bind,
      Effect.after_modify, Effect.after_files]
    split <;> exact others _ _
  sections path world := by
    simp only [logging, Inspector.recorded, Inspector.ofContent, Effect.after_bind,
      Effect.after_files]
    split <;> rfl

theorem logging_constant (calls : Bridge.Call → Prop) (isThere rooted : Bool)
    (symbols : Option ByteArray) :
    logging.bridge.Constant calls (fun log => log.device.Gives isThere rooted symbols) isThere
      rooted symbols where
  available world gives := ⟨gives.connects, gives⟩
  switchToRoot world gives := ⟨gives.roots, gives⟩
  shell arguments _ world gives := gives.shell arguments
  pull source target _ world gives := by
    simp only [logging, Bridge.recorded, Simulated.bridge, Effect.after_bind, Effect.after_read,
      Effect.after_modify]
    split
    · exact gives
    · simp only [Effect.after_bind, Effect.after_files]
      split <;> exact gives
  symbols target world gives := by
    intro isRooted fs
    have given := (gives.shell ["echo", "0", ">/proc/sys/kernel/kptr_restrict"]).given
      (gives.roots.symm.trans isRooted)
    exact (Simulated.pull_receives _ _ target _).trans (congrArg (fs.receive target) given)

def symbolsWorld : World Logged :=
  ⟨Sample.files Sample.unknown Sample.stripped,
    ⟨{ DeviceSource.sampleDevice [] with rooted := true, kernelSymbols := some Sample.stripped },
      [], []⟩⟩

def symbolsReport : BuildReport where
  tracePath := "t"
  cacheDir := "c"
  period := default
  binaries := Sample.binaries "1"
  sources := [⟨SearchDirs.sourceName, ["/a"], [], [], false⟩,
    ⟨DeviceSource.sourceName, [], ["/a"], [], true⟩]
  indexEntries := 2

def symbolsBuilt (world : World Logged) : (RequiredBinaries × Except CacheError BuildReport) ×
    World Logged :=
  logging.build .empty (cutReader none) (.ofString "t") [.ofString "l"] default world

theorem symbolsBuilt_fills : symbolsBuilt symbolsWorld = Prod.map (Sample.binaries "1", ·) id
    (logging.fill (Sample.binaries "1") (.ofString "t") [.ofString "l"] default symbolsWorld) := rfl

theorem symbolsBuilt_ran :
    (symbolsBuilt symbolsWorld).1 = (Sample.binaries "1", .ok symbolsReport) ∧
      (symbolsBuilt symbolsWorld).2.files.read (Sample.cache.pathOf "/a") =
        .ok Sample.stripped := by
  rw [symbolsBuilt_fills]
  simp only [fill, pullFromDevice, DeviceSource.collect, Sample.binaries, List.foldlM_cons,
    List.foldlM_nil, DeviceSource.collectBinary, DeviceSource.sample_pullable]
  cbv
  exact ⟨rfl, trivial⟩

theorem build_again_sample :
    let after := (symbolsBuilt symbolsWorld).2
    ∃ next last, symbolsBuilt after = ((Sample.binaries "1", .ok next), last) ∧
      Repeats symbolsReport next ∧
      Adds Logged.calls (DeviceSource.ServiceCall Sample.cache) after last ∧
      ∀ place, last.files.at? place = after.files.at? place := by
  intro after
  have complete : DeviceSource.Idle Sample.reading Sample.cache (Sample.binaries "1")
      after.files := by
    intro path expected required _
    obtain rfl := Sample.only_path (SortedMap.contains_of_get? required)
    obtain rfl : expected = "1" := Option.some.inj (required.symm.trans (by cbv))
    exact ⟨_, symbolsBuilt_ran.2, .inr (by cbv)⟩
  obtain ⟨next, last, records, built, repeats, -, -, called, same⟩ := build_again logging
    logging_reads logging_confined (logging_constant _ true true (some Sample.stripped))
    (logging_leaves (fun log => log.device.Gives true true (some Sample.stripped)) fun _ _ => rfl)
    logging_logs (logging_leaves Logged.calls fun _ _ => rfl)
    (cutReader none) (cutReader_leaves none _).keepsFiles (cutReader_leaves none _)
    (cutReader_leaves none _) .empty .empty (.ofString "t") [.ofString "l"] default default
    symbolsWorld after ⟨rfl, rfl, fun _ => by cbv⟩ (Sample.plain _ _) (Sample.detached _ _)
    symbolsReport (Prod.ext symbolsBuilt_ran.1 rfl) (fun _ none => by simp at none)
    (Sample.separates "1") (fun _ => complete) rfl
  exact ⟨next, last, built, repeats, called, same⟩

def detoured : Builder Logged := { logging with cache := DeviceSource.detouredCache }

def detouredWorld : World Logged :=
  ⟨(FileSystem.empty.put [] Sample.cacheName .dir).put [Sample.cacheName] kernelSymbolsName
    (.file Sample.stripped), ⟨DeviceSource.sampleDevice [], [], []⟩⟩

def detouredBuild (world : World Logged) :
    (RequiredBinaries × Except CacheError BuildReport) × World Logged :=
  detoured.build .empty ⟨fun _ => pure ⟨[], none, fun _ => pure ""⟩⟩ (.ofString "t") [] default
    world

def detouredReport (indexEntries : Nat) : BuildReport where
  tracePath := "t"
  cacheDir := "a/../c"
  period := default
  binaries := .empty
  sources := [⟨DeviceSource.sourceName, [], [], [], false⟩]
  indexEntries := indexEntries

theorem detouredBuild_fills (world : World Logged) : detouredBuild world =
    Prod.map (.empty, ·) id (detoured.fill .empty (.ofString "t") [] default world) := rfl

theorem stale_symbols_listed_once :
    (detouredWorld.files.PlainBelow detoured.cache.root ∧ detoured.cache.Separates .empty ∧
      detoured.inspector.Reads Sample.reading ∧ detoured.bridge.Confined ∧
      detoured.bridge.Constant (fun _ => True) (fun log => log.device.Gives true false none) true
        false none ∧
      detouredWorld.rest.device.Gives true false none ∧
      ∀ fs, DeviceSource.Idle Sample.reading detoured.cache .empty fs) ∧
    (detouredBuild detouredWorld).1 = (.empty, .ok (detouredReport 1)) ∧
    (detouredBuild (detouredBuild detouredWorld).2).1 = (.empty, .ok (detouredReport 0)) := by
  have none : ∀ path, ¬(SortedMap.empty : RequiredBinaries).contains path = true :=
    fun _ required => nomatch required
  refine ⟨⟨?_, ⟨⟨fun path _ required => absurd required (none path),
    fun path required => absurd required (none path)⟩,
    fun path required => absurd required (none path)⟩, logging_reads, logging_confined,
    logging_constant _ _ _ _, ⟨rfl, rfl, nofun⟩, fun _ _ _ required => nomatch required⟩, ?_, ?_⟩
  · exact plainBelow_of_noLinks _ _ (put_noLinks _ _ _ _ (put_noLinks _ _ _ _ empty_noLinks
      (by simp)) (by simp))
  · rw [detouredBuild_fills]
    cbv
  · rw [detouredBuild_fills, detouredBuild_fills]
    cbv

end Builder

end BuildIdCache
