import BuildIdCache.Proofs.Index.Stored

set_option autoImplicit false

namespace BuildIdCache

open FileSystem

variable {σ : Type} {reading : Reading} {binaries : RequiredBinaries} {cache : Cache}

/-- No path through a directory leads to a file at or below a root. That is asked only as long as
the root cannot be entered: later a file in it is found there, and not copied onto itself. -/
def FileSystem.Outside (fs : FileSystem) (root dir : Path) : Prop :=
  (∃ place, fs.Enters root place) ∨
    ∀ names place rest, fs.isFile (dir.extend names) = true → fs.aimAt root = some place →
      fs.aimAt (dir.extend names) ≠ some (place ++ rest)

def Listed (binaries : RequiredBinaries) (report : SourceReport) (path : String) : Prop :=
  (path ∈ report.collected ∨ path ∈ report.reused) ∧
    ∃ expected, binaries.get? path = some expected ∧ expected ≠ ""

structure Gathered (reading : Reading) (cache : Cache) (binaries : RequiredBinaries)
    (start : FileSystem) (report : SourceReport) (fs : FileSystem) : Prop where
  stocks : cache.Stocks (Listed binaries report) (Cache.Fits reading binaries .stripped) fs
  named : ∀ path, path ∈ report.collected ∨ path ∈ report.reused → (cacheRelative path).names ≠ []
  entered : (∃ place, fs.Enters cache.root place) ∨ fs = start

section

variable {start fs after : FileSystem} {report next : SourceReport} {path expected : String}

theorem Gathered.add (gathered : Gathered reading cache binaries start report fs)
    (required : binaries.get? path = some expected) (named : (cacheRelative path).names ≠ [])
    (stocks : cache.Stocks (Listed binaries report) (Cache.Fits reading binaries .stripped) after)
    (there : expected ≠ "" → ∃ content, after.read (cache.pathOf path) = .ok content ∧
      reading.buildId content = expected)
    (entered : ∃ place, after.Enters cache.root place)
    (reported : ∀ other, other ∈ next.collected ∨ other ∈ next.reused ↔
      (other ∈ report.collected ∨ other ∈ report.reused) ∨ other = path) :
    Gathered reading cache binaries start next after where
  stocks := by
    refine ⟨stocks.plain, ?_⟩
    rintro other ⟨listed, known⟩
    rcases (reported other).1 listed with before | rfl
    · exact stocks.has other ⟨before, known⟩
    · obtain ⟨expected', required', notEmpty⟩ := known
      obtain rfl : expected = expected' := Option.some.inj (required.symm.trans required')
      obtain ⟨content, readable, hasId⟩ := there notEmpty
      exact ⟨content, readable, by rw [required, hasId], by rwa [hasId],
        StrippedLevel.le_stripped _⟩
  named other listed := by
    rcases (reported other).1 listed with before | rfl
    · exact gathered.named other before
    · exact named
  entered := .inl entered

theorem enters_of_copied {file : Path} (named : (cacheRelative path).names ≠ [])
    (written : (fs.withParents (cache.pathOf path)).copy file (cache.pathOf path) = .ok after) :
    ∃ place, after.Enters cache.root place := by
  obtain ⟨place, content, filled, same, -⟩ := copy_sameBut _ after _ _ written
  obtain ⟨found, resolved⟩ := resolve_of_target? _ _ _ filled
  obtain ⟨top, entered⟩ := enters_of_extend _ true cache.root _ found named resolved
  exact ⟨top, (same.steady_of_target? filled (by simp)).enters entered⟩

end

namespace SearchDirs

theorem read_gathered {start now after : FileSystem} {dir : Path} {names : List Name}
    {report : SourceReport} {path expected : String}
    (gathered : Gathered reading cache binaries start report now)
    (outside : start.Outside cache.root dir) (named : (cacheRelative path).names ≠ [])
    (lacking : ¬Suffices reading now (dir.extend names) (cache.pathOf path) expected)
    (written : (now.withParents (cache.pathOf path)).copy (dir.extend names) (cache.pathOf path) =
      .ok after) (offered : ByteArray) (readable : now.read (dir.extend names) = .ok offered)
    (hasId : reading.buildId offered = expected) :
    after.read (cache.pathOf path) = .ok offered ∧ after.read (dir.extend names) = .ok offered := by
  refine Cache.read_offered lacking written readable hasId fun place filled leads there => ?_
  have sprouts := now.withParents_sprouts (cache.pathOf path)
  have plain := gathered.stocks.plain
  have aimed := aimAt_of_target? _ _ place filled
  rw [sprouts.steady.aimAt, cache.pathOf_eq_extend, now.aimAt_extend _ _ plain,
    Option.map_eq_some_iff] at aimed
  obtain ⟨top, reached, rfl⟩ := aimed
  have enters : (∃ place, now.Enters cache.root place) →
      now.read (cache.pathOf path) = .ok offered := by
    rintro ⟨entry, entered⟩
    exact read_of_enters plain sprouts _ _ offered filled there entry entered named
  rcases gathered.entered with entered | rfl
  · exact enters entered
  · rcases outside with entered | outside
    · exact enters entered
    · exact absurd leads (outside names top _ ((now.isFile_iff _).2 ⟨offered, readable⟩) reached)

variable {inspector : Inspector σ} (reads : inspector.Reads reading)
  (distinct : cache.Distinct binaries)

include reads distinct

theorem ends_visit_gathers (start : FileSystem) (dir : Path) (names : List Name)
    (outside : start.Outside cache.root dir)
    (report : SourceReport) (world : World σ)
    (gathered : Gathered reading cache binaries start report world.files) :
    (visit inspector cache binaries.byFileName report (dir.extend names)).Ends world
      (fun next after => Gathered reading cache binaries start next after.files) fun _ => True := by
  refine (ends_visit reads cache binaries (dir.extend names) report world
    (fun _ next after => Gathered reading cache binaries start next after.files ∧
      (reading.buildIdAt world.files (dir.extend names) ≠ "" →
        reading.buildIdAt after.files (dir.extend names) =
          reading.buildIdAt world.files (dir.extend names))) _
    (fun after same => ?_) ?_).mono (fun _ _ h => h.1) fun _ left => left
  · rw [same]
    exact ⟨gathered, fun _ => rfl⟩
  · rintro before path expected next between member ⟨gathered, same⟩
    have required := ((mem_sought binaries _ path expected).1 member).1
    have named := names_of_sought member
    refine (ends_offer reads cache (dir.extend names) _ next path expected between).mono ?_
      fun _ _ => trivial
    rintro last after (⟨-, rfl, unchanged⟩ | ⟨-, rfl, unchanged, enough⟩ |
      ⟨rfl, rfl, lacking, written⟩)
    · exact unchanged ▸ ⟨gathered, same⟩
    · rw [unchanged]
      obtain ⟨cached, readable, hasId, -⟩ := enough
      obtain ⟨place, entered, -⟩ := between.files.entered_of_read cache.root _ cached
        gathered.stocks.plain named readable
      refine ⟨gathered.add required named gathered.stocks (fun _ => ⟨cached, readable, hasId⟩)
        ⟨place, entered⟩ fun other => ?_, same⟩
      simp only [mem_addOnce, or_assoc]
    -- The file is outside the cache, or else it would be the cached one and suffice; so a copy does
    -- not empty it, and it keeps its build-id.
    · have offers : reading.buildIdAt world.files (dir.extend names) ≠ "" → ∃ offered,
          reading.buildId offered = reading.buildIdAt world.files (dir.extend names) ∧
            after.files.read (cache.pathOf path) = .ok offered ∧
            after.files.read (dir.extend names) = .ok offered := by
        intro known
        obtain ⟨offered, readable, hasId⟩ :=
          reading.read_of_buildIdAt between.files (dir.extend names) (by rwa [same known])
        rw [same known] at hasId
        exact ⟨offered, hasId,
          read_gathered gathered outside named lacking written offered readable hasId⟩
      have copied := gathered.stocks.copied distinct required lacking written fun _ _ => same
      refine ⟨gathered.add required named copied.1 (fun known => ?_)
        (enters_of_copied named written) fun other => ?_, fun known => ?_⟩
      · obtain ⟨offered, hasId, now, -⟩ := offers known
        exact ⟨offered, now, hasId⟩
      · simp only [mem_addOnce]
        tauto
      · obtain ⟨offered, hasId, -, still⟩ := offers known
        rw [reading.buildIdAt_of_read _ _ offered still, hasId]

theorem ends_collect_gathers (dirs : List Path) (world : World σ)
    (plain : world.files.PlainBelow cache.root)
    (outside : ∀ dir ∈ dirs, world.files.Outside cache.root dir) :
    (collect inspector dirs binaries cache).Ends world
      (fun report after =>
        cache.Stocks (Listed binaries report) (Cache.Fits reading binaries .stripped) after.files ∧
          ∀ path, path ∈ report.collected ∨ path ∈ report.reused →
            (cacheRelative path).names ≠ [])
      fun _ => True := by
  have first : Gathered reading cache binaries world.files (.start sourceName) world.files :=
    ⟨⟨plain, fun _ listed => by simp [Listed, SourceReport.start] at listed⟩,
      by simp [SourceReport.start], .inr rfl⟩
  refine (ends_collect reads cache binaries dirs
    (fun report after => Gathered reading cache binaries world.files report after.files) _ world
    first (fun dir member names report between gathered _ => ?_) fun _ _ _ => trivial).mono ?_
    fun _ left => left
  · exact ends_visit_gathers reads distinct world.files dir names
      (outside dir member) report between gathered
  · rintro report after ⟨found, gathered, rfl⟩
    have wider : ∀ path, path ∈ found.collected ∨
        path ∈ found.reused.filter (fun path => path ∉ found.collected) →
          path ∈ found.collected ∨ path ∈ found.reused := by
      intro path
      exact Or.imp_right List.mem_of_mem_filter
    exact ⟨gathered.stocks.mono fun path listed => ⟨wider path listed.1, listed.2⟩,
      fun path listed => gathered.named path (wider path listed)⟩

end SearchDirs

namespace Builder

theorem copyFromSearchDirs_eq_ok {builder : Builder σ} {dirs : List Path} {world searched : World σ}
    {copied : Option SourceReport}
    (copying : builder.copyFromSearchDirs binaries dirs world = (.ok copied, searched)) :
    dirs = [] ∧ copied = none ∧ searched = world ∨ dirs ≠ [] ∧ ∃ report, copied = some report ∧
      SearchDirs.collect builder.inspector dirs binaries builder.cache world =
        (.ok report, searched) := by
  rw [copyFromSearchDirs] at copying
  split at copying
  next none =>
    obtain ⟨answer, rfl⟩ := Prod.mk.inj copying
    exact .inl ⟨List.isEmpty_iff.1 none, (Except.ok.inj answer).symm, rfl⟩
  next further =>
    obtain ⟨_, between, requiring, searching⟩ := Action.bind_eq_ok _ _ _ _ _ copying
    obtain ⟨report, last, collecting, answering⟩ := Action.bind_eq_ok _ _ _ _ _ searching
    obtain ⟨answer, rfl⟩ := Prod.mk.inj answering
    rw [(SearchDirs.ends_require dirs world).of_ok requiring] at collecting
    exact .inr ⟨fun none => further (by simp [none]), report, (Except.ok.inj answer).symm,
      collecting⟩

theorem ends_copyFromSearchDirs {builder : Builder σ} (reads : builder.inspector.Reads reading)
    (distinct : builder.cache.Distinct binaries) (dirs : List Path)
    (world : World σ)
    (plain : world.files.PlainBelow builder.cache.root)
    (outside : ∀ dir ∈ dirs, world.files.Outside builder.cache.root dir) :
    (builder.copyFromSearchDirs binaries dirs).Ends world
      (fun copied after => after.files.PlainBelow builder.cache.root ∧
        ∀ found ∈ copied, builder.cache.Stocks (Listed binaries found)
            (Cache.Fits reading binaries .stripped) after.files ∧
          ∀ path, path ∈ found.collected ∨ path ∈ found.reused → (cacheRelative path).names ≠ [])
      fun _ => True := by
  rw [copyFromSearchDirs]
  split
  · exact ⟨plain, by simp⟩
  · rw [Action.ends_bind]
    refine (SearchDirs.ends_require dirs world).mono ?_ fun _ _ => trivial
    rintro - _ rfl
    rw [Action.ends_bind]
    refine (SearchDirs.ends_collect_gathers reads distinct dirs _ plain outside).mono ?_
      fun _ left => left
    rintro report after ⟨stocks, named⟩
    refine ⟨stocks.plain, fun found member => ?_⟩
    obtain rfl : report = found := by simpa using member
    exact ⟨stocks, named⟩

theorem build_eq_ok (builder : Builder σ) (known : RequiredBinaries) (reader : TraceReader σ)
    (tracePath : Path) (dirs : List Path) (period : Period) (world after : World σ)
    (report : BuildReport)
    (built : builder.build known reader tracePath dirs period world =
      ((binaries, .ok report), after)) :
    ∃ begun copied searched pulled filled records,
      discover reader tracePath world = (.ok binaries, begun) ∧
      builder.copyFromSearchDirs binaries dirs begun = (.ok copied, searched) ∧
      builder.pullFromDevice binaries searched = (.ok pulled, filled) ∧
      builder.storeIndex filled = (.ok records, after) ∧
      report.sources = copied.toList ++ [pulled] ∧ report.indexEntries = records.length := by
  rw [build, Effect.bind_apply] at built
  unfold ExceptT.run at built
  rcases ran : discover reader tracePath world with ⟨⟨e⟩ | found, begun⟩
  · rw [ran] at built
    cases built
  · rw [ran] at built
    obtain ⟨answer, rfl⟩ := Prod.mk.inj built
    obtain ⟨rfl, filled⟩ := Prod.mk.inj answer
    have filling : builder.fill found tracePath dirs period begun =
        (.ok report, (builder.fill found tracePath dirs period begun).2) := Prod.ext filled rfl
    obtain ⟨copied, searched, copying, filling⟩ := Action.bind_eq_ok _ _ _ _ _ filling
    obtain ⟨pulled, pulledTo, pulling, filling⟩ := Action.bind_eq_ok _ _ _ _ _ filling
    obtain ⟨records, last, storing, filling⟩ := Action.bind_eq_ok _ _ _ _ _ filling
    obtain ⟨answer, left⟩ := Prod.mk.inj filling
    obtain rfl := Except.ok.inj answer
    exact ⟨begun, copied, searched, pulled, pulledTo, records, rfl, copying, pulling,
      storing.trans (by rw [left]; rfl), rfl, rfl⟩

/-- What a build leaves of a path in the cache: a regular file with the build-id, and a record in
the list that was stored last. The list consists of the lines of its records, and no other record
has the path. -/
structure Published (builder : Builder σ) (reading : Reading) (path expected : String)
    (report : BuildReport) (after : World σ) : Prop where
  file : ∃ parent name content, after.files.resolve false (builder.cache.pathOf path) =
    .ok (.file parent name content) ∧ reading.buildId content = expected
  listed : ∃ before records front back list,
    builder.storeIndex before = (.ok records, after) ∧
    report.indexEntries = records.length ∧
    records = front ++ ⟨expected, joinParts (normalParts path)⟩ :: back ∧
    records.count ⟨expected, joinParts (normalParts path)⟩ = 1 ∧
    (∀ other ∈ front ++ back, other.path ≠ joinParts (normalParts path)) ∧
    after.files.read builder.cache.listPath = .ok list ∧
    list.toList = front.flatMap Index.lineOf ++
      Index.lineOf ⟨expected, joinParts (normalParts path)⟩ ++ back.flatMap Index.lineOf

theorem stored_record {builder : Builder σ} (reads : builder.inspector.Reads reading)
    (separates : builder.cache.Separates binaries) {path expected : String}
    (required : binaries.get? path = some expected) (named : (cacheRelative path).names ≠ [])
    {made fs : FileSystem} {place : Location} {records : List IndexRecord}
    (stored : Index.Stored builder.inspector builder.cache made fs place records)
    (stocks : builder.cache.Stocks (· = path) (Cache.Fits reading binaries .stripped) made) :
    ⟨expected, joinParts (normalParts path)⟩ ∈ records := by
  obtain ⟨content, readable, required', known, -⟩ := stocks.has path rfl
  obtain rfl : expected = reading.buildId content := Option.some.inj (required.symm.trans required')
  obtain ⟨top, entered, there⟩ :=
    made.entered_of_read builder.cache.root _ content stocks.plain named readable
  obtain rfl : place = top :=
    Option.some.inj ((made.aimAt_of_resolve _ _ stored.isDir).symm.trans entered.aimAt)
  refine (stored.gathered.mem_iff reads _).2 ⟨_, ⟨named, .inl ⟨content, there⟩⟩,
    separates.names_ne_list (SortedMap.contains_of_get? required),
    (reading.buildIdAt_of_read made _ content readable).symm, known, renderNames_cacheRelative path⟩

def sampleReport : BuildReport where
  tracePath := "t"
  cacheDir := "c"
  period := default
  binaries := Sample.binaries "1"
  sources := [⟨SearchDirs.sourceName, ["/a"], [], [], false⟩, .start DeviceSource.sourceName]
  indexEntries := 1

def sampleBuild : (RequiredBinaries × Except CacheError BuildReport) × World Simulated.Device :=
  sample.build .empty sampleReader (.ofString "t") [.ofString "l"] default
    ⟨Sample.files Sample.stripped Sample.withSymbols, default⟩

theorem sampleBuild_eq : sampleBuild.1 = (Sample.binaries "1", .ok sampleReport) := by
  have discovered : sampleBuild.1 = (Sample.binaries "1",
      (sample.fill (Sample.binaries "1") (.ofString "t") [.ofString "l"] default
        ⟨Sample.files Sample.stripped Sample.withSymbols, default⟩).1) := rfl
  rw [discovered]
  cbv

theorem build_publishes (builder : Builder σ) (reads : builder.inspector.Reads reading)
    (confined : builder.bridge.Confined) (reader : TraceReader σ) (keepsFiles : reader.KeepsFiles)
    (known : RequiredBinaries) (tracePath : Path) (dirs : List Path) (period : Period)
    (world after : World σ) (plain : world.files.PlainBelow builder.cache.root)
    (outside : ∀ dir ∈ dirs, world.files.Outside builder.cache.root dir)
    (report : BuildReport)
    (built : builder.build known reader tracePath dirs period world =
      ((binaries, .ok report), after))
    (separates : builder.cache.Separates binaries) (found : SourceReport)
    (source : found ∈ report.sources) (searched : found.source = SearchDirs.sourceName)
    (path expected : String) (reported : path ∈ found.collected ∨ path ∈ found.reused)
    (required : binaries.get? path = some expected) (notEmpty : expected ≠ "") :
    Published builder reading path expected report after := by
  obtain ⟨begun, copied, between, pulled, filled, records, discovering, copying, pulling, storing,
    sources, entries⟩ :=
      build_eq_ok builder known reader tracePath dirs period world after report built
  have begins := (ends_discover keepsFiles tracePath world).of_ok discovering
  rw [← begins] at plain outside
  obtain ⟨plain, gathered⟩ :=
    (ends_copyFromSearchDirs reads separates.toDistinct dirs begun plain outside).of_ok copying
  have pulls : ∀ kept, builder.cache.Stocks kept (Cache.Fits reading binaries .stripped)
      between.files → pulled.source = DeviceSource.sourceName ∧
        builder.cache.Stocks kept (Cache.Fits reading binaries .stripped) filled.files :=
    fun kept stocks => (DeviceSource.ends_collect confined separates.toDistinct Cache.fits_trusted
      reads _ between stocks).of_ok pulling
  have fromDevice := (pulls (fun _ => False) (Cache.stocks_nothing plain)).1
  -- The other source has another name.
  have copiedIt : found ∈ copied := by
    rw [sources, List.mem_append, Option.mem_toList, List.mem_singleton] at source
    refine source.resolve_right ?_
    rintro rfl
    exact absurd (fromDevice.symm.trans searched) (by decide)
  obtain ⟨stocks, named⟩ := gathered found copiedIt
  -- What the search has copied is kept by the device source and by the store of the list.
  have stocksFilled := (pulls (· = path) (stocks.mono (by
    rintro _ rfl
    exact ⟨reported, expected, required, notEmpty⟩))).2
  obtain ⟨made, place, sprouts, stored⟩ :=
    Index.store_stored reads.keepsFiles stocksFilled.plain storing
  have stocksAfter := stored.stocks sprouts stocksFilled (by
    rintro _ rfl
    exact separates.names_ne_list (SortedMap.contains_of_get? required))
  constructor
  · obtain ⟨content, readable, required', -⟩ := stocksAfter.has path rfl
    obtain ⟨parent, name, there⟩ := after.files.resolve_of_read builder.cache.root _ content
      stocksAfter.plain (named path reported) readable
    exact ⟨parent, name, content, there, Option.some.inj (required'.symm.trans required)⟩
  · have member := stored_record reads separates required (named path reported) stored
      (stocksFilled.sprouts sprouts)
    obtain ⟨front, back, split, others⟩ := stored.gathered.split member
    refine ⟨filled, records, front, back, _, storing, entries, split, ?_, others,
      Index.read_stored stored.written, ?_⟩
    · exact List.count_eq_one_of_mem stored.gathered.nodup member
    · rw [Index.bytes_render, split]
      simp

theorem build_publishes_sample :
    Published sample Sample.reading "/a" "1" sampleReport sampleBuild.2 := by
  have enters : (Sample.files Sample.stripped Sample.withSymbols).Enters Sample.cache.root
      [Sample.cacheName] := enters_of_resolve _ _ _ (by cbv)
  exact build_publishes sample (Inspector.ofContent_reads _ Sample.reading)
    (Simulated.bridge_confined _) sampleReader ⟨fun _ _ => ⟨rfl, fun _ _ => rfl⟩⟩ .empty
    (.ofString "t") [.ofString "l"] default _ _ (Sample.plain _ _) (fun _ _ => .inl ⟨_, enters⟩)
    sampleReport (Prod.ext sampleBuild_eq rfl) (Sample.separates "1") _ (List.mem_cons_self ..) rfl
    "/a" "1" (.inl (List.mem_singleton_self _)) (by cbv) (by decide)

end Builder

end BuildIdCache
