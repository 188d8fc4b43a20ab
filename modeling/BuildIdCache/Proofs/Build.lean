import BuildIdCache.Build
import BuildIdCache.Device.Simulated
import BuildIdCache.Proofs.Index.Store
import BuildIdCache.Proofs.Source.Device

set_option autoImplicit false

namespace BuildIdCache

open FileSystem

variable {σ : Type} {reading : Reading} {binaries : RequiredBinaries} {kept : String → Prop}
  {bound : StrippedLevel}

namespace SearchDirs

variable {inspector : Inspector σ} {cache : Cache} (reads : inspector.Reads reading)
  (distinct : cache.Distinct binaries)

include reads distinct

theorem ends_visit_stocks (file : Path) (report : SourceReport) (world : World σ)
    (stocks : cache.Stocks kept (Cache.Fits reading binaries bound) world.files) :
    (visit inspector cache binaries.byFileName report file).Ends world
      (fun _ after => cache.Stocks kept (Cache.Fits reading binaries bound) after.files)
      fun after => cache.Stocks kept (Cache.Fits reading binaries bound) after.files := by
  refine (ends_visit reads cache binaries file report world
    (fun _ _ after => cache.Stocks kept (Cache.Fits reading binaries bound) after.files ∧
      ∀ other, kept other → reading.buildIdAt world.files file ≠ "" →
        reading.buildIdAt after.files file = reading.buildIdAt world.files file) _
    (fun after same => ?_) ?_).mono (fun _ _ h => h.1) fun _ left => left
  · rw [same]
    exact ⟨stocks, fun _ _ _ => rfl⟩
  · rintro before path expected next between member ⟨stocks, same⟩
    have required := ((mem_sought binaries file path expected).1 member).1
    refine (ends_offer reads cache file _ next path expected between).mono ?_ ?_
    · rintro last after (⟨-, -, unchanged⟩ | ⟨-, -, unchanged, -⟩ | ⟨rfl, -, lacking, written⟩)
      · exact unchanged ▸ ⟨stocks, same⟩
      · exact unchanged ▸ ⟨stocks, same⟩
      · exact stocks.copied distinct required lacking written same
    · intro after made
      rw [made]
      exact stocks.sprouts (between.files.withParents_sprouts _)

theorem ends_collect_stocks (dirs : List Path) (world : World σ)
    (stocks : cache.Stocks kept (Cache.Fits reading binaries bound) world.files) :
    (collect inspector dirs binaries cache).Ends world
      (fun _ after => cache.Stocks kept (Cache.Fits reading binaries bound) after.files)
      fun after => cache.Stocks kept (Cache.Fits reading binaries bound) after.files :=
  (ends_collect reads cache binaries dirs
    (fun _ after => cache.Stocks kept (Cache.Fits reading binaries bound) after.files)
    _ world stocks
    (fun dir _ names report between stocks _ =>
      ends_visit_stocks reads distinct (dir.extend names) report between stocks)
    fun _ _ stocks => stocks).mono (fun _ _ h => h.elim fun _ found => found.1) fun _ left => left

end SearchDirs

theorem SearchDirs.ends_require (dirs : List Path) (world : World σ) :
    (SearchDirs.require dirs).Ends world (fun _ after => after = world) fun after =>
      after = world := by
  induction dirs with
  | nil => rfl
  | cons dir rest ih =>
    rw [SearchDirs.require, Action.ends_bind, Action.ends_files]
    split
    · exact ih
    · rfl

namespace Builder

inductive Operation
  | copyFromSearchDirs (dirs : List Path)
  | pullFromDevice
  | storeIndex

def Operation.run (builder : Builder σ) (binaries : RequiredBinaries) (world : World σ) :
    Operation → World σ
  | .copyFromSearchDirs dirs => (builder.copyFromSearchDirs binaries dirs world).2
  | .pullFromDevice => (builder.pullFromDevice binaries world).2
  | .storeIndex => (builder.storeIndex world).2

def runAll (builder : Builder σ) (binaries : RequiredBinaries) (world : World σ)
    (operations : List Operation) : World σ :=
  operations.foldl (Operation.run builder binaries) world

section

variable {builder : Builder σ} (reads : builder.inspector.Reads reading)
  (confined : builder.bridge.Confined) (separates : builder.cache.Separates binaries)

include reads confined separates

theorem run_stocks (kept : String → Prop) (bound : StrippedLevel) (operation : Operation)
    (world : World σ)
    (stocks : builder.cache.Stocks kept (Cache.Fits reading binaries bound) world.files) :
    builder.cache.Stocks kept (Cache.Fits reading binaries bound)
      (operation.run builder binaries world).files := by
  cases operation with
  | copyFromSearchDirs dirs =>
    have ends : (builder.copyFromSearchDirs binaries dirs).Ends world
        (fun _ after => builder.cache.Stocks kept (Cache.Fits reading binaries bound) after.files)
        fun after => builder.cache.Stocks kept (Cache.Fits reading binaries bound) after.files := by
      rw [copyFromSearchDirs]
      split
      · exact stocks
      · rw [Action.ends_bind]
        refine (SearchDirs.ends_require dirs world).mono ?_ ?_
        · rintro - _ rfl
          rw [Action.ends_bind]
          exact SearchDirs.ends_collect_stocks reads separates.toDistinct dirs _ stocks
        · rintro _ rfl
          exact stocks
    exact ends.both
  | pullFromDevice =>
    exact ((DeviceSource.ends_collect confined separates.toDistinct Cache.fits_trusted reads _ world
      stocks).mono (fun _ _ h => h.2) fun _ left => left).both
  | storeIndex =>
    have others : ∀ path, kept path → (cacheRelative path).names ≠ [listName] := by
      intro path isKept
      obtain ⟨content, -, fits⟩ := stocks.has path isKept
      exact separates.names_ne_list (SortedMap.contains_of_get? fits.1)
    exact ((Index.closed_stocks reads.keepsFiles others).ends_store reads.keepsFiles world
      stocks).both

theorem runAll_stocks (kept : String → Prop) (bound : StrippedLevel) (operations : List Operation)
    (world : World σ)
    (stocks : builder.cache.Stocks kept (Cache.Fits reading binaries bound) world.files) :
    builder.cache.Stocks kept (Cache.Fits reading binaries bound)
      (runAll builder binaries world operations).files := by
  induction operations generalizing world with
  | nil => exact stocks
  | cons operation rest ih =>
    exact ih _ (run_stocks reads confined separates kept bound operation world stocks)

end

def sample : Builder Simulated.Device where
  inspector := .ofContent "sample" Sample.reading.buildId Sample.reading.sections
  bridge := Simulated.bridge .whole
  cache := Sample.cache

def sampleReader : TraceReader Simulated.Device :=
  ⟨fun _ => pure ⟨[⟨some ⟨"/a", none⟩, []⟩], none, fun _ => pure "1"⟩⟩

theorem cached_never_regresses (builder : Builder σ) (reads : builder.inspector.Reads reading)
    (confined : builder.bridge.Confined) (separates : builder.cache.Separates binaries)
    (world : World σ) (plain : world.files.PlainBelow builder.cache.root)
    (earlier later : List Operation) (path expected : String)
    (required : binaries.get? path = some expected) (known : expected ≠ "") (content : ByteArray)
    (cached : (runAll builder binaries world earlier).files.read (builder.cache.pathOf path) =
      .ok content)
    (matched : reading.buildId content = expected) :
    ∃ newer,
      (runAll builder binaries world (earlier ++ later)).files.read (builder.cache.pathOf path) =
        .ok newer ∧
      reading.buildId newer = expected ∧ reading.level newer ≤ reading.level content := by
  have before := runAll_stocks reads confined separates (fun _ => False) .stripped earlier world
    (Cache.stocks_nothing plain)
  have after := runAll_stocks reads confined separates (· = path) (reading.level content) later
    (runAll builder binaries world earlier) (Cache.stocks_of_read before.plain cached
      ⟨by rw [required, matched], by rwa [matched], le_refl _⟩)
  obtain ⟨newer, readable, required', -, level⟩ := after.has path rfl
  obtain rfl : expected = reading.buildId newer := Option.some.inj (required.symm.trans required')
  exact ⟨newer, by rw [runAll, List.foldl_append]; exact readable, rfl, level⟩

theorem cached_never_regresses_sample :
    ∃ newer, (runAll sample (Sample.binaries "1")
        ⟨Sample.files Sample.stripped Sample.withSymbols, default⟩
        ([] ++ [.copyFromSearchDirs [.ofString "l"], .pullFromDevice, .storeIndex])).files.read
          (Sample.cache.pathOf "/a") = .ok newer ∧
      Sample.reading.buildId newer = "1" ∧
      Sample.reading.level newer ≤ Sample.reading.level Sample.stripped :=
  cached_never_regresses sample (Inspector.ofContent_reads _ Sample.reading)
    (Simulated.bridge_confined _) (Sample.separates "1") _ (Sample.plain _ _) _ _ "/a" "1" (by cbv)
    (by decide) Sample.stripped (by cbv) (by cbv)

end Builder

end BuildIdCache
