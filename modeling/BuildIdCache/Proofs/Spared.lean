import BuildIdCache.Proofs.Early
import BuildIdCache.Proofs.Publish
import BuildIdCache.Proofs.Source.Calls
import BuildIdCache.Proofs.Source.Stock

set_option autoImplicit false

namespace BuildIdCache

open FileSystem

variable {σ : Type} {reading : Reading} {binaries : RequiredBinaries} {cache : Cache}
  {path expected : String}

namespace DeviceSource

section

variable {inspector : Inspector σ} {bridge : Bridge σ} (reads : inspector.Reads reading)
  (distinct : cache.Distinct binaries) {good : String → ByteArray → Prop}
  (trusted : Cache.Trusted reading binaries (· = path) good) (confined : bridge.Confined)
  (pullable : isPullable path = true)

include reads distinct trusted confined pullable

theorem ends_collectBinary_reuses (chain : List Strategy) (before : List (String × String))
    (report : SourceReport) (other wanted : String)
    (required' : binaries.get? other = some wanted) (world : World σ)
    (stocks : cache.Stocks (· = path) good world.files)
    (reused : path ∈ before.map Prod.fst → path ∈ report.reused)
    (spared : path ∉ report.collected ∧ path ∉ report.failed) :
    (collectBinary inspector bridge chain cache report (other, wanted)).Ends world
      (fun next after => cache.Stocks (· = path) good after.files ∧
        (path ∈ (before ++ [(other, wanted)]).map Prod.fst → path ∈ next.reused) ∧
        path ∉ next.collected ∧ path ∉ next.failed) fun _ => True := by
  have split : path ∈ (before ++ [(other, wanted)]).map Prod.fst ↔
      path ∈ before.map Prod.fst ∨ path = other := by simp
  rw [split]
  refine ((ends_collectBinary confined distinct trusted reads chain report other wanted
    required' world stocks).and (ends_collectBinary_of chain report other wanted world
      (fun next _ => (path ∈ before.map Prod.fst ∨ path = other → path ∈ next.reused) ∧
        path ∉ next.collected ∧ path ∉ next.failed) (fun _ => True) (fun local_ => ?_)
      (fun asked _ _ => ?_) (fun asked fs _ ran _ _ => ?_) fun _ _ _ _ _ _ _ => trivial)).mono
    (fun next after holds => ⟨holds.1.2, holds.2⟩) fun _ _ => trivial
  · refine ⟨fun member => member.elim reused ?_, spared⟩
    rintro rfl
    simp [local_] at pullable
  · exact ⟨fun member => List.mem_append.2 (member.imp reused (by simp)), spared⟩
  -- What the cache has for the path is trusted, so it is another path that is pulled.
  · have apart : path ≠ other := by
      rintro rfl
      obtain ⟨content, readable, isGood⟩ := stocks.has path rfl
      obtain ⟨expected', again, isTrusted⟩ := trusted path content rfl isGood
      obtain rfl : wanted = expected' := Option.some.inj (required'.symm.trans again)
      have asked := (after_isTrusted reads (cache.pathOf path) wanted world).of_run ran
      exact Bool.noConfusion (asked.2.2 ⟨content, readable, isTrusted⟩)
    have tallied : ∀ answer,
        (path ∈ before.map Prod.fst ∨ path = other → path ∈ (tally report other answer).reused) ∧
          path ∉ (tally report other answer).collected ∧
            path ∉ (tally report other answer).failed := by
      intro answer
      have unchanged : (tally report other answer).reused = report.reused := by
        cases answer <;> rfl
      refine ⟨fun member => unchanged ▸ member.elim reused fun here => absurd here apart, ?_⟩
      cases answer <;> simp [tally, apart, spared]
    exact tallied _

theorem ends_collect_reuses (required : binaries.get? path = some expected) (chain : List Strategy)
    (world : World σ) (stocks : cache.Stocks (· = path) good world.files) :
    (collect inspector bridge chain binaries cache).Ends world
      (fun report _ => ((bridge.available world).1 = true → path ∈ report.reused) ∧
        path ∉ report.collected ∧ path ∉ report.failed)
      fun _ => True := by
  refine ends_collect_of chain world
    (fun before report between => cache.Stocks (· = path) good between.files ∧
      (path ∈ before.map Prod.fst → path ∈ report.reused) ∧
      path ∉ report.collected ∧ path ∉ report.failed) _ _
    ((confined.available world).mono fun _ first same => ⟨same ▸ stocks, by simp, by
      simp [SourceReport.start], by simp [SourceReport.start]⟩)
    (fun first unavailable holds => ⟨by simp [unavailable], holds.2.2⟩)
    (fun before other wanted rest report between split _ ⟨stocksNow, reused, spared⟩ => ?_)
    fun report between _ ⟨_, reused, spared⟩ => ?_
  · exact ends_collectBinary_reuses reads distinct trusted confined pullable chain before report
      other wanted (SortedMap.get?_of_split split) between stocksNow reused spared
  · refine ends_pullKernelSymbols_of between _ _ fun fs _ => ?_
    have member := List.mem_map_of_mem (f := Prod.fst)
      ((binaries.get?_eq_some_iff path expected).1 required)
    exact ⟨fun _ => ⟨fun _ => reused member, spared⟩, fun _ _ => ⟨fun _ => reused member, spared⟩,
      fun _ _ => trivial⟩

end

end DeviceSource

/-- What a run asks a device for when it spares it a path. Each call is made for no path or for
another one that is pulled; none writes to the place of the path in the cache; and a call is given
the path only if that is where the kernel symbols are read, where copies are made, or where the copy
of another path is made. -/
structure Spared (cache : Cache) (binaries : RequiredBinaries) (path : String)
    (report : SourceReport) (made : List Bridge.Call) : Prop where
  others : ∀ call ∈ made, DeviceSource.ServiceCall cache call ∨ ∃ other, other ≠ path ∧
    DeviceSource.Asked binaries other ∧ (other ∈ report.collected ∨ other ∈ report.failed) ∧
    ∃ strategy ∈ DeviceSource.defaultChain, DeviceSource.CallFor cache other strategy call
  target : ∀ source, .pull source (cache.pathOf path) ∉ made
  names : ∀ call ∈ made, call.Names path → path = DeviceSource.deviceKernelSymbols ∨
    ∃ other, other ≠ path ∧ DeviceSource.Asked binaries other ∧
      (other ∈ report.collected ∨ other ∈ report.failed) ∧
      (path = DeviceSource.scratchDir ∨
        path = DeviceSource.stagedPath DeviceSource.scratchDir other)

theorem DeviceSource.spared_of_explained (distinct : cache.Distinct binaries)
    (required : binaries.contains path = true) (pullable : isPullable path = true)
    {report : SourceReport} (spared : path ∉ report.collected ∧ path ∉ report.failed)
    {made : List Bridge.Call}
    (explained : ∀ call ∈ made, Explains defaultChain binaries cache report call) :
    Spared cache binaries path report made := by
  have others : ∀ call ∈ made, ServiceCall cache call ∨ ∃ other, other ≠ path ∧
      Asked binaries other ∧ (other ∈ report.collected ∨ other ∈ report.failed) ∧
      ∃ strategy ∈ defaultChain, CallFor cache other strategy call := by
    intro call member
    refine (explained call member).imp_right ?_
    rintro ⟨other, asked, listed, isCall⟩
    refine ⟨other, ?_, asked, listed, isCall⟩
    rintro rfl
    exact listed.elim spared.1 spared.2
  refine ⟨others, fun source member => ?_, fun call member names => ?_⟩
  · rcases others _ member with service | ⟨other, apart, asked, -, strategy, -, isCall⟩
    · exact distinct.pathOf_ne_kernelSymbols required service.target
    · exact apart (distinct.paths other path asked.1 required isCall.target.symm)
  · rcases others call member with service | ⟨other, apart, asked, listed, strategy, among, isCall⟩
    · exact .inl (service.symbols pullable names)
    · obtain ⟨dir, rfl, staged⟩ := isCall.staged pullable names apart
      obtain rfl : dir = scratchDir := by simpa [defaultChain] using among
      exact .inr ⟨other, apart, asked, listed, staged⟩

namespace Builder

theorem stocks_of_copied {builder : Builder σ} {dirs : List Path}
    (reads : builder.inspector.Reads reading)
    (distinct : builder.cache.Distinct binaries) {world searched : World σ}
    (plain : world.files.PlainBelow builder.cache.root)
    (apart : ∀ dir ∈ dirs, ∃ place, world.files.Apart builder.cache.root dir place)
    {copied : Option SourceReport}
    (copying : builder.copyFromSearchDirs binaries dirs world = (.ok copied, searched))
    {path expected : String} (required : binaries.get? path = some expected)
    (found : ∃ file, SearchDirs.Candidate reading world.files dirs path expected file) :
    builder.cache.Stocks (· = path)
      (fun _ => SearchDirs.Satisfies reading world.files dirs path expected) searched.files := by
  rcases copyFromSearchDirs_eq_ok copying with ⟨rfl, -, -⟩ | ⟨-, report, -, collecting⟩
  · simp [SearchDirs.Candidate] at found
  · exact ((SearchDirs.ends_collect_served reads distinct required plain dirs apart world
      rfl).of_ok collecting).2.stocked found

/-- A path for which a search finds a file is reused by the device source, and no call is made for
it, whatever the device holds and answers. -/
theorem build_spares_device (builder : Builder σ) (reads : builder.inspector.Reads reading)
    (confined : builder.bridge.Confined) {log : σ → List Bridge.Call}
    (logs : builder.bridge.Logs log)
    (quiet : ∀ path, (builder.inspector.buildId path).Leaves fun world => log world.rest)
    (reader : TraceReader σ) (keepsFiles : reader.KeepsFiles) (knownBefore : RequiredBinaries)
    (tracePath : Path) (dirs : List Path) (period : Period) (world after : World σ)
    (plain : world.files.PlainBelow builder.cache.root)
    (apart : ∀ dir ∈ dirs, ∃ place, world.files.Apart builder.cache.root dir place)
    (report : BuildReport)
    (built : builder.build knownBefore reader tracePath dirs period world =
      ((binaries, .ok report), after))
    (distinct : builder.cache.Distinct binaries) (required : binaries.get? path = some expected)
    (pullable : DeviceSource.isPullable path = true)
    (found : ∃ file, SearchDirs.Candidate reading world.files dirs path expected file) :
    ∃ begun copied searched pulled filled made,
      discover reader tracePath world = (.ok binaries, begun) ∧
      builder.copyFromSearchDirs binaries dirs begun = (.ok copied, searched) ∧
      builder.pullFromDevice binaries searched = (.ok pulled, filled) ∧
      report.sources = copied.toList ++ [pulled] ∧
      log filled.rest = log searched.rest ++ made ∧
      ((builder.bridge.available searched).1 = true → path ∈ pulled.reused) ∧
      path ∉ pulled.collected ∧ path ∉ pulled.failed ∧
      Spared builder.cache binaries path pulled made := by
  obtain ⟨begun, copied, searched, pulled, filled, records, discovering, copying, pulling, -,
    sources, -⟩ :=
      build_eq_ok builder knownBefore reader tracePath dirs period world after report built
  have begins := (ends_discover keepsFiles tracePath world).of_ok discovering
  have stocks := stocks_of_copied reads distinct (begins ▸ plain) (begins ▸ apart) copying required
    (begins ▸ found)
  obtain ⟨reused, spared⟩ := (DeviceSource.ends_collect_reuses reads distinct
    (SearchDirs.satisfies_trusted required) confined pullable required _ searched stocks).of_ok
      pulling
  obtain ⟨made, added, explained⟩ :=
    (DeviceSource.ends_collect_calls logs quiet searched).of_ok pulling
  have contained := SortedMap.contains_of_get? required
  exact ⟨begun, copied, searched, pulled, filled, made, discovering, copying, pulling, sources,
    added, reused, spared.1, spared.2,
    DeviceSource.spared_of_explained distinct contained pullable spared explained⟩

def sparingWorld (unreadable : List String) : World Logged :=
  ⟨Sample.files Sample.unknown Sample.stripped, ⟨DeviceSource.sampleDevice unreadable, [], []⟩⟩

theorem logging_logs : logging.bridge.Logs Logged.calls := by
  refine Bridge.recorded_logs _ _ (fun _ _ => rfl) ⟨fun _ => rfl, fun _ => rfl, fun _ _ => rfl, ?_⟩
  intro source target world
  simp only [Simulated.bridge, Effect.after_bind, Effect.after_read]
  split
  · rfl
  · simp only [Effect.after_bind, Effect.after_files]
    split <;> rfl

theorem logging_reads : logging.inspector.Reads Sample.reading :=
  (Inspector.ofContent_reads "sample" Sample.reading).recorded _

theorem logging_confined : logging.bridge.Confined :=
  (Simulated.bridge_confined _).recorded _

theorem logging_quiet (path : Path) :
    (logging.inspector.buildId path).Leaves fun world => Logged.calls world.rest := by
  intro world
  simp only [logging, Inspector.recorded, Inspector.ofContent, Effect.after_bind,
    Effect.after_modify, Effect.after_files]
  split <;> rfl

def sparingReport : BuildReport where
  tracePath := "t"
  cacheDir := "c"
  period := default
  binaries := Sample.binaries "1"
  sources := [⟨SearchDirs.sourceName, ["/a"], [], [], false⟩,
    ⟨DeviceSource.sourceName, [], ["/a"], [], false⟩]
  indexEntries := 1

theorem sparing_built :
    (logging.build .empty (cutReader none) (.ofString "t") [.ofString "l"] default
    (sparingWorld [])).1 = (Sample.binaries "1", .ok sparingReport) := by
  have discovered : (logging.build .empty (cutReader none) (.ofString "t") [.ofString "l"] default
      (sparingWorld [])).1 = (Sample.binaries "1", (logging.fill (Sample.binaries "1")
        (.ofString "t") [.ofString "l"] default (sparingWorld [])).1) := rfl
  rw [discovered]
  simp only [fill, pullFromDevice, DeviceSource.collect, Sample.binaries, List.foldlM_cons,
    List.foldlM_nil, DeviceSource.collectBinary, DeviceSource.sample_pullable]
  cbv

theorem build_spares_device_sample :
    ∃ searched pulled filled made,
      logging.pullFromDevice (Sample.binaries "1") searched = (.ok pulled, filled) ∧
      filled.rest.calls = searched.rest.calls ++ made ∧ "/a" ∈ pulled.reused ∧
      "/a" ∉ pulled.collected ∧ "/a" ∉ pulled.failed ∧
      Spared Sample.cache (Sample.binaries "1") "/a" pulled made := by
  obtain ⟨begun, copied, searched, pulled, filled, made, discovering, copying, pulling, -, added,
    reused, spares⟩ := build_spares_device logging logging_reads logging_confined logging_logs
      logging_quiet (cutReader none) (cutReader_leaves none _).keepsFiles .empty (.ofString "t")
      [.ofString "l"] default (sparingWorld []) _ (Sample.plain _ _) (Sample.apart _ _)
      sparingReport (Prod.ext sparing_built rfl) (Sample.separates "1").toDistinct (by cbv) (by cbv)
      ⟨_, Sample.candidate _ _⟩
  refine ⟨searched, pulled, filled, made, pulling, added, reused ?_, spares⟩
  have read : begun = sparingWorld [] := (congrArg Prod.snd discovering).symm
  rw [read] at copying
  have found : searched =
      (logging.copyFromSearchDirs (Sample.binaries "1") [.ofString "l"] (sparingWorld [])).2 :=
    (congrArg Prod.snd copying).symm
  rw [found]
  cbv

def sharedNames : RequiredBinaries := ⟨[("/a", "2"), ("/data/local/tmp/a", "1")], by decide⟩

theorem sharedNames_distinct : Sample.cache.Distinct sharedNames := by
  have known : ∀ path, sharedNames.contains path = true →
      path = "/a" ∨ path = "/data/local/tmp/a" := by
    intro path required
    obtain ⟨value, member⟩ := (sharedNames.contains_iff path).1 required
    simp only [sharedNames, List.mem_cons, List.not_mem_nil, or_false, Prod.mk.injEq] at member
    exact member.imp And.left And.left
  have apart : Sample.cache.pathOf "/a" ≠ Sample.cache.pathOf "/data/local/tmp/a" := by
    decide +kernel
  refine ⟨fun path other required required' same => ?_, fun path required => ?_⟩
  · rcases known path required with rfl | rfl <;> rcases known other required' with rfl | rfl
    · rfl
    · exact absurd same apart
    · exact absurd same.symm apart
    · rfl
  · rcases known path required with rfl | rfl <;> cbv

def sharedReader : TraceReader Logged :=
  ⟨fun _ => pure ⟨[⟨some ⟨"/a", none⟩, [⟨"/data/local/tmp/a", none⟩]⟩], none,
    fun dso => pure (if dso = "/a" then "2" else "1")⟩⟩

def sharedPulls : SourceReport :=
  ⟨DeviceSource.sourceName, ["/a"], ["/data/local/tmp/a"], [], false⟩

def sharedReport : BuildReport where
  tracePath := (Path.ofString "t").display
  cacheDir := Sample.cache.root.display
  period := default
  binaries := sharedNames
  sources := [⟨SearchDirs.sourceName, ["/data/local/tmp/a"], [], [], false⟩, sharedPulls]
  indexEntries := 2

def dataName : Name := ⟨[0x64, 0x61, 0x74, 0x61], by decide⟩
def localName : Name := ⟨[0x6C, 0x6F, 0x63, 0x61, 0x6C], by decide⟩
def tmpName : Name := ⟨[0x74, 0x6D, 0x70], by decide⟩

def sharedWorld (cached : ByteArray) (calls : List Bridge.Call) (asked : List Path) :
    World Logged where
  files := ((((Sample.files cached Sample.stripped).put [Sample.cacheName] dataName .dir).put
    [Sample.cacheName, dataName] localName .dir).put
    [Sample.cacheName, dataName, localName] tmpName .dir).put
    [Sample.cacheName, dataName, localName, tmpName] Sample.fileName (.file Sample.stripped)
  rest := ⟨DeviceSource.sampleDevice ["/a"], calls, asked⟩

def sharedCalls : List Bridge.Call :=
  [.available, .pull "/a" (.ofString "c/a"), .shell ["cp", "/a", "/data/local/tmp"],
    .pull "/data/local/tmp/a" (.ofString "c/a"), .shell ["rm", "/data/local/tmp/a"]]

def sharedAsked : List Path := [.ofString "l/a", .ofString "c/a", .ofString "c/data/local/tmp/a"]

theorem shared_searched : logging.copyFromSearchDirs sharedNames [.ofString "l"]
    (sparingWorld ["/a"]) =
      (.ok (some ⟨SearchDirs.sourceName, ["/data/local/tmp/a"], [], [], false⟩),
        sharedWorld Sample.unknown [] (sharedAsked.take 1)) := by
  cbv

theorem shared_pulled : logging.pullFromDevice sharedNames
    (sharedWorld Sample.unknown [] (sharedAsked.take 1)) =
      (.ok sharedPulls, sharedWorld Sample.stripped (sharedCalls ++ [.root]) sharedAsked) := by
  have available : (liftM logging.bridge.available : Action Logged Bool)
      (sharedWorld Sample.unknown [] (sharedAsked.take 1)) =
      (.ok true, sharedWorld Sample.unknown [.available] (sharedAsked.take 1)) := by cbv
  have staged : DeviceSource.collectBinary logging.inspector logging.bridge
      DeviceSource.defaultChain Sample.cache (.start DeviceSource.sourceName) ("/a", "2")
      (sharedWorld Sample.unknown [.available] (sharedAsked.take 1)) =
      (.ok ⟨DeviceSource.sourceName, ["/a"], [], [], false⟩,
        sharedWorld Sample.stripped sharedCalls (sharedAsked.take 2)) := by
    simp only [DeviceSource.collectBinary, DeviceSource.sample_pullable]
    cbv
  have trusted : DeviceSource.collectBinary logging.inspector logging.bridge
      DeviceSource.defaultChain Sample.cache ⟨DeviceSource.sourceName, ["/a"], [], [], false⟩
      ("/data/local/tmp/a", "1") (sharedWorld Sample.stripped sharedCalls (sharedAsked.take 2)) =
      (.ok sharedPulls, sharedWorld Sample.stripped sharedCalls sharedAsked) :=
    DeviceSource.collectBinary_of_trusted _ _ _ _ (by cbv) (by cbv)
  have folded : sharedNames.entries.foldlM (DeviceSource.collectBinary logging.inspector
      logging.bridge DeviceSource.defaultChain Sample.cache) (.start DeviceSource.sourceName)
      (sharedWorld Sample.unknown [.available] (sharedAsked.take 1)) =
      (.ok sharedPulls, sharedWorld Sample.stripped sharedCalls sharedAsked) :=
    (Action.bind_of_ok _ _ _ _ _ staged).trans (Action.bind_of_ok _ _ _ _ _ trusted)
  have unrooted : DeviceSource.pullKernelSymbols logging.bridge Sample.cache
      (sharedWorld Sample.stripped sharedCalls sharedAsked) =
      (.ok false, sharedWorld Sample.stripped (sharedCalls ++ [.root]) sharedAsked) := by cbv
  refine (Action.bind_of_ok _ _ _ _ _ available).trans ?_
  refine (Action.bind_of_ok _ _ _ _ _ folded).trans ?_
  exact Action.bind_of_ok _ _ _ _ _ unrooted

theorem shared_stored : ∃ after,
    logging.storeIndex (sharedWorld Sample.stripped (sharedCalls ++ [.root]) sharedAsked) =
      (.ok [⟨"1", "a"⟩, ⟨"1", "data/local/tmp/a"⟩], after) ∧
    after.rest.calls = sharedCalls ++ [.root] := by
  have ran : (logging.storeIndex
        (sharedWorld Sample.stripped (sharedCalls ++ [.root]) sharedAsked)).1 =
        .ok [⟨"1", "a"⟩, ⟨"1", "data/local/tmp/a"⟩] ∧
      (logging.storeIndex (sharedWorld Sample.stripped (sharedCalls ++ [.root])
        sharedAsked)).2.rest.calls = sharedCalls ++ [.root] := by
    cbv
    exact ⟨rfl, trivial⟩
  exact ⟨_, Prod.ext ran.1 rfl, ran.2⟩

/-- A path that is found is given to the device all the same, as the copy of another path: that copy
is pulled, and removed together with what the device had there. -/
theorem copy_of_another_pulled :
    ∃ after, logging.build .empty sharedReader (.ofString "t") [.ofString "l"] default
        (sparingWorld ["/a"]) = ((sharedNames, .ok sharedReport), after) ∧
      (sparingWorld ["/a"]).files.PlainBelow Sample.cache.root ∧
      (∀ dir ∈ [Path.ofString "l"], ∃ place,
        (sparingWorld ["/a"]).files.Apart Sample.cache.root dir place) ∧
      Sample.cache.Distinct sharedNames ∧
      sharedNames.get? "/data/local/tmp/a" = some "1" ∧
      DeviceSource.isPullable "/data/local/tmp/a" = true ∧
      SearchDirs.Candidate Sample.reading (sparingWorld ["/a"]).files [.ofString "l"]
        "/data/local/tmp/a" "1" ((Path.ofString "l").extend [Sample.fileName]) ∧
      .pull "/data/local/tmp/a" (.ofString "c/a") ∈ after.rest.calls ∧
      .shell ["rm", "/data/local/tmp/a"] ∈ after.rest.calls := by
  obtain ⟨after, stored, called⟩ := shared_stored
  have filled : logging.fill sharedNames (.ofString "t") [.ofString "l"] default
      (sparingWorld ["/a"]) = (.ok sharedReport, after) := by
    refine (Action.bind_of_ok _ _ _ _ _ shared_searched).trans ?_
    refine (Action.bind_of_ok _ _ _ _ _ shared_pulled).trans ?_
    exact Action.bind_of_ok _ _ _ _ _ stored
  have discovered : logging.build .empty sharedReader (.ofString "t") [.ofString "l"] default
      (sparingWorld ["/a"]) = Prod.map (sharedNames, ·) id (logging.fill sharedNames
        (.ofString "t") [.ofString "l"] default (sparingWorld ["/a"])) := rfl
  have found : SearchDirs.Candidate Sample.reading (sparingWorld ["/a"]).files [.ofString "l"]
      "/data/local/tmp/a" "1" ((Path.ofString "l").extend [Sample.fileName]) :=
    ⟨_, List.mem_singleton_self _, [Sample.searchName], [Sample.fileName], by cbv,
      ⟨by simp, .inl ⟨Sample.stripped, by cbv⟩⟩, rfl, by cbv,
      Reading.buildIdAt_of_read _ _ _ Sample.stripped (by cbv)⟩
  refine ⟨after, by rw [discovered, filled]; rfl, Sample.plain _ _, Sample.apart _ _,
    sharedNames_distinct, by cbv, by cbv, found, ?_, ?_⟩
  · simp [called, sharedCalls]
  · simp [called, sharedCalls]

end Builder

end BuildIdCache
