import BuildIdCache.Proofs.FileSystem.Behind
import BuildIdCache.Proofs.Source.Device
import BuildIdCache.Proofs.Source.Matching

set_option autoImplicit false

namespace BuildIdCache

open FileSystem

variable {σ : Type} {inspector : Inspector σ} {reading : Reading} {binaries : RequiredBinaries}
  {cache : Cache} {place top : Location} {content : ByteArray}

structure Cache.LinksTo (cache : Cache) (fs : FileSystem) (path : String) (place : Location)
    (content : ByteArray) : Prop where
  link : ∃ parent name target, fs.resolve false (cache.pathOf path) = .ok (.link parent name target)
  readable : fs.read (cache.pathOf path) = .ok content
  leads : fs.aimAt (cache.pathOf path) = some place
  outside : ∀ top, fs.aimAt cache.root = some top → ¬top <+: place

section

variable {fs : FileSystem} {path : String} (linked : cache.LinksTo fs path place content)

include linked

theorem Cache.LinksTo.there : fs.at? place = some (.file content) := by
  obtain ⟨origin, leads, there⟩ := fs.place_of_read _ content linked.readable
  obtain rfl : place = origin := Option.some.inj (linked.leads.symm.trans leads)
  exact there

theorem Cache.LinksTo.entered : ∃ top, fs.Enters cache.root top := by
  have leads := linked.leads
  obtain ⟨parent, name, target, found⟩ := linked.link
  rw [pathOf_eq_extend] at leads found
  by_cases atRoot : (cacheRelative path).names = []
  · rw [atRoot] at leads
    exact absurd (List.prefix_refl place) (linked.outside place leads)
  · exact fs.enters_of_extend false cache.root _ _ atRoot found

end

def Cache.Detours (cache : Cache) (fs : FileSystem) (path : String) : Prop :=
  ∃ top front rest target, fs.aimAt cache.root = some top ∧
    (cacheRelative path).names = front ++ rest ∧ rest ≠ [] ∧
    fs.at? (top ++ front) = some (.link target)

namespace DeviceSource

variable {bridge : Bridge σ} {chain : List Strategy} {world : World σ}

/-- In a run, a file is taken away as the untrusted one of a path: the path goes through a link in
the cache, and ends at the file itself. -/
def Takes (inspector : Inspector σ) (bridge : Bridge σ) (chain : List Strategy)
    (binaries : RequiredBinaries) (cache : Cache) (world : World σ) (place : Location) : Prop :=
  ∃ before path expected rest report between asked,
    binaries.entries = before ++ (path, expected) :: rest ∧ cache.Detours world.files path ∧
    Reports inspector bridge chain cache world before report between ∧ isPullable path = true ∧
    isTrusted inspector (cache.pathOf path) expected between = (false, asked) ∧
    (asked.files.withParents (cache.pathOf path)).EndsAt (cache.pathOf path) place

structure Stays (inspector : Inspector σ) (bridge : Bridge σ) (chain : List Strategy)
    (binaries : RequiredBinaries) (cache : Cache) (world : World σ) (top place : Location)
    (content : ByteArray) (fs : FileSystem) : Prop where
  entered : fs.Enters cache.root top
  links : ∀ place target, fs.at? place = some (.link target) →
    world.files.at? place = some (.link target)
  file : fs.at? place = some (.file content) ∨
    Takes inspector bridge chain binaries cache world place

section

variable {fs after : FileSystem} {path : Path}
  (stays : Stays inspector bridge chain binaries cache world top place content fs)

include stays

theorem Stays.sprouts (sprouts : Sprouts fs after) :
    Stays inspector bridge chain binaries cache world top place content after where
  entered := sprouts.steady.enters stays.entered
  links other target link := stays.links other target ((sprouts.steady.links other target).1 link)
  file := stays.file.imp_left (sprouts.file place content).2

theorem Stays.cleared (cleared : fs.Cleared after path)
    (takes : fs.EndsAt path place → Takes inspector bridge chain binaries cache world place) :
    Stays inspector bridge chain binaries cache world top place content after where
  entered := cleared.enters stays.entered
  links other target link := stays.links other target (cleared.link link)
  file := stays.file.elim (fun there => (cleared.file there).imp_right takes) .inr

theorem Stays.touches (touches : fs.TouchesOnly after path) (absent : fs.isFile path = false) :
    Stays inspector bridge chain binaries cache world top place content after where
  entered := touches.steady.enters stays.entered
  links other target link := stays.links other target ((touches.steady.links other target).1 link)
  file := stays.file.imp_left (touches.file absent)

theorem Stays.link_of_endsAt (names : List Name)
    (ends : fs.EndsAt (cache.root.extend names) place) (outside : ¬top <+: place) :
    ∃ front rest target, names = front ++ rest ∧ rest ≠ [] ∧
      world.files.at? (top ++ front) = some (.link target) := by
  obtain ⟨front, rest, target, names, further, link⟩ :=
    stays.entered.link_of_endsAt names ends outside
  exact ⟨front, rest, target, names, further, stays.links _ target link⟩

end

section

variable (confined : bridge.Confined) (begun : world.files.Enters cache.root top)
  (outside : ¬top <+: place)

include confined begun outside

theorem ends_collectBinary_stays (keeps : inspector.KeepsFiles)
    (before rest : List (String × String))
    (path expected : String) (split : binaries.entries = before ++ (path, expected) :: rest)
    (report : SourceReport) (between : World σ)
    (ran : Reports inspector bridge chain cache world before report between)
    (stays : Stays inspector bridge chain binaries cache world top place content between.files) :
    (collectBinary inspector bridge chain cache report (path, expected)).Ends between
      (fun _ after => Stays inspector bridge chain binaries cache world top place content
        after.files)
      fun after => Stays inspector bridge chain binaries cache world top place content
        after.files := by
  have asking : ∀ answer asked,
      isTrusted inspector (cache.pathOf path) expected between = (answer, asked) →
        Stays inspector bridge chain binaries cache world top place content asked.files :=
    fun answer asked ran => files_of_isTrusted keeps _ expected between ran ▸ stays
  refine ends_collectBinary_of chain report path expected between _ _ (fun _ => stays)
    (fun asked _ ran => asking true asked ran) (fun asked fs pullable untrusted _ cleared => ?_)
    fun asked _ _ _ ran _ _ => (asking false asked ran).sprouts (asked.files.withParents_sprouts _)
  have made := (asking false asked untrusted).sprouts
    (asked.files.withParents_sprouts (cache.pathOf path))
  have ready := made.cleared cleared fun ends => by
    obtain ⟨front, more, target, names, further, link⟩ := made.link_of_endsAt _ ends outside
    exact ⟨before, path, expected, rest, report, between, asked, split,
      ⟨top, front, more, target, begun.aimAt, names, further, link⟩, ran, pullable, untrusted, ends⟩
  exact (after_pullFile confined path _ chain { asked with files := fs }).mono fun _ _ touches =>
    ready.touches touches (absent_of_cleared _ cleared)

theorem ends_pullKernelSymbols_stays (between : World σ)
    (stays : Stays inspector bridge chain binaries cache world top place content between.files) :
    (pullKernelSymbols bridge cache).Ends between
      (fun _ after => Stays inspector bridge chain binaries cache world top place content
        after.files)
      fun after => Stays inspector bridge chain binaries cache world top place content
        after.files := by
  refine ends_pullKernelSymbols_of between _ _ fun fs cleared => ?_
  have ready := stays.cleared cleared fun ends => by
    obtain ⟨front, rest, target, names, further, link⟩ :=
      stays.link_of_endsAt [kernelSymbolsName] ends outside
    obtain ⟨rfl, -⟩ := (List.append_eq_singleton_iff.1 names.symm).resolve_right (further ·.2)
    simp [begun.isDir] at link
  have absent := absent_of_cleared _ cleared
  refine (confined.switchToRoot _).mono fun rooted first same => ?_
  rw [← show first.files = fs from same] at ready absent
  -- The cache is a directory already, so that no file comes into sight.
  have unmade := ready.entered.makeDirAll
  refine ⟨fun _ => ready, fun _ _ => ?_, fun _ _ => unmade.symm ▸ ready⟩
  refine (confined.shell _ _).mono fun _ second same => ?_
  refine (confined.pull _ _ second).mono fun _ third touches => ?_
  rw [same, unmade] at touches
  exact ready.touches touches absent

theorem ends_collect_stays (keeps : inspector.KeepsFiles)
    (there : world.files.at? place = some (.file content)) :
    (collect inspector bridge chain binaries cache).Ends world
      (fun _ after => Stays inspector bridge chain binaries cache world top place content
        after.files)
      fun after => Stays inspector bridge chain binaries cache world top place content
        after.files := by
  refine ends_collect_of chain world
    (fun _ _ after => Stays inspector bridge chain binaries cache world top place content
      after.files)
    _ _ ((confined.available world).mono fun _ first same =>
      same ▸ ⟨begun, fun _ _ link => link, .inl there⟩)
    (fun _ _ stays => stays) (fun before path expected rest report between split ran stays => ?_)
    fun _ between _ stays => ends_pullKernelSymbols_stays confined begun outside between stays
  exact ends_collectBinary_stays confined begun outside keeps before rest path expected split report
    between ran stays

end

end DeviceSource

namespace SearchDirs

/-- A file that may be where a required path leads, once it was copied there: it has the build-id
that is expected of the path. One that was copied onto itself is empty. -/
def Suits (reading : Reading) (binaries : RequiredBinaries) (cache : Cache) (fs : FileSystem)
    (place : Location) (content : ByteArray) : Prop :=
  content = ByteArray.empty ∨ ∃ path expected, binaries.get? path = some expected ∧
    fs.aimAt (cache.pathOf path) = some place ∧ reading.buildId content = expected

structure Overwrites (reading : Reading) (binaries : RequiredBinaries) (cache : Cache)
    (start : FileSystem) (report : SourceReport) (now : FileSystem) : Prop where
  steady : Steady start now
  kept : ∀ place content, start.at? place = some (.file content) →
    (∀ path ∈ report.collected, start.aimAt (cache.pathOf path) ≠ some place) →
    now.at? place = some (.file content)
  filled : ∀ path ∈ report.collected, ∀ place, start.aimAt (cache.pathOf path) = some place →
    ∃ content, now.at? place = some (.file content) ∧
      Suits reading binaries cache start place content

section

variable {start now after : FileSystem} {report : SourceReport}
  (overwrites : Overwrites reading binaries cache start report now)

include overwrites

theorem Overwrites.sprouts (sprouts : Sprouts now after) :
    Overwrites reading binaries cache start report after where
  steady := overwrites.steady.trans sprouts.steady
  kept place content there apart :=
    (sprouts.file place content).2 (overwrites.kept place content there apart)
  filled path collected place leads := by
    obtain ⟨content, there, suits⟩ := overwrites.filled path collected place leads
    exact ⟨content, (sprouts.file place content).2 there, suits⟩

theorem Overwrites.copied {path expected : String} (required : binaries.get? path = some expected)
    {filled : Location}
    (target : (now.withParents (cache.pathOf path)).target? (cache.pathOf path) = some filled)
    (same : SameBut (now.withParents (cache.pathOf path)) after filled (some (.file content)))
    (suits : reading.buildId content = expected ∨ content = ByteArray.empty) :
    Overwrites reading binaries cache start
      { report with collected := addOnce report.collected path } after := by
  have made := overwrites.sprouts (now.withParents_sprouts (cache.pathOf path))
  have leads := aimAt_of_target? _ _ filled target
  rw [made.steady.aimAt] at leads
  refine ⟨made.steady.trans (same.steady_of_target? target (by simp)), ?_, ?_⟩
  · intro place old there apart
    have elsewhere : place ≠ filled := fun here =>
      apart path ((mem_addOnce _ _ _).2 (.inr rfl)) (here ▸ leads)
    rw [same.at?, if_neg elsewhere]
    exact made.kept place old there fun other member =>
      apart other ((mem_addOnce _ _ _).2 (.inl member))
  · intro other member place aimed
    by_cases here : place = filled
    · refine ⟨content, by rw [same.at?, if_pos here], ?_⟩
      exact suits.symm.imp_right fun hasId => ⟨path, expected, required, here ▸ leads, hasId⟩
    · have earlier : other ∈ report.collected := by
        rcases (mem_addOnce _ _ _).1 member with earlier | rfl
        · exact earlier
        · exact absurd (Option.some.inj (aimed.symm.trans leads)) here
      obtain ⟨old, there, suits⟩ := made.filled other earlier place aimed
      exact ⟨old, by rw [same.at?, if_neg here, there], suits⟩

theorem Overwrites.file (there : start.at? place = some (.file content)) :
    ∃ left, now.at? place = some (.file left) ∧
      (left = content ∨ Suits reading binaries cache start place left) := by
  by_cases reached : ∃ path ∈ report.collected, start.aimAt (cache.pathOf path) = some place
  · obtain ⟨path, collected, leads⟩ := reached
    obtain ⟨left, there, suits⟩ := overwrites.filled path collected place leads
    exact ⟨left, there, .inr suits⟩
  · have apart : ∀ path ∈ report.collected, start.aimAt (cache.pathOf path) ≠ some place :=
      fun path collected leads => reached ⟨path, collected, leads⟩
    exact ⟨content, overwrites.kept place content there apart, .inl rfl⟩

theorem Overwrites.kept_iff (there : start.at? place = some (.file content))
    (unsuited : ¬Suits reading binaries cache start place content) :
    now.at? place = some (.file content) ↔
      ∀ path ∈ report.collected, start.aimAt (cache.pathOf path) ≠ some place := by
  refine ⟨fun still path collected leads => ?_, overwrites.kept place content there⟩
  obtain ⟨other, now_, suits⟩ := overwrites.filled path collected place leads
  obtain rfl : content = other := by simpa [still] using now_
  exact unsuited suits

end

theorem ends_collect_overwrites (reads : inspector.Reads reading) (dirs : List Path)
    (world : World σ) :
    (collect inspector dirs binaries cache).Ends world
      (fun report after => Overwrites reading binaries cache world.files report after.files)
      fun after => ∃ report, Overwrites reading binaries cache world.files report after.files := by
  refine (ends_collect_copies reads dirs world (Overwrites reading binaries cache world.files)
    ⟨.refl _, fun _ _ there _ => there, by simp [SourceReport.start]⟩
    (fun _ _ _ overwrites => ⟨overwrites.steady, overwrites.kept, overwrites.filled⟩)
    (fun _ _ _ overwrites sprouts => overwrites.sprouts sprouts)
    fun _ _ _ _ _ _ _ overwrites required target same suits =>
      overwrites.copied required target same suits).mono ?_ fun _ left => left
  rintro report after ⟨found, overwrites, rfl⟩
  exact ⟨overwrites.steady, overwrites.kept, overwrites.filled⟩

end SearchDirs

/-- The file behind a cached link keeps its bytes when a device is pulled from, unless it is also
the cached file of a path that goes through a link to its directory. The search directories write
over it: exactly if a path is collected that leads to it, where none of the paths that do expects
it. -/
theorem collect_behind_link {bridge : Bridge σ} (reads : inspector.Reads reading)
    (confined : bridge.Confined) (chain : List DeviceSource.Strategy) (dirs : List Path)
    (binaries : RequiredBinaries) (world : World σ) (path : String)
    (linked : cache.LinksTo world.files path place content) :
    (DeviceSource.collect inspector bridge chain binaries cache).Ends world
        (fun _ after => after.files.at? place = some (.file content) ∨
          DeviceSource.Takes inspector bridge chain binaries cache world place)
        (fun after => after.files.at? place = some (.file content) ∨
          DeviceSource.Takes inspector bridge chain binaries cache world place) ∧
      (SearchDirs.collect inspector dirs binaries cache).Ends world
        (fun report after =>
          SearchDirs.Overwrites reading binaries cache world.files report after.files ∧
          (¬SearchDirs.Suits reading binaries cache world.files place content →
            (after.files.at? place = some (.file content) ↔
              ∀ path ∈ report.collected, world.files.aimAt (cache.pathOf path) ≠ some place)))
        fun after => ∃ left, after.files.at? place = some (.file left) ∧
          (left = content ∨ SearchDirs.Suits reading binaries cache world.files place left) := by
  obtain ⟨top, entered⟩ := linked.entered
  have there := linked.there
  constructor
  · exact (DeviceSource.ends_collect_stays confined entered (linked.outside top entered.aimAt)
      reads.keepsFiles there).mono (fun _ _ stays => stays.file) fun _ stays => stays.file
  · refine (SearchDirs.ends_collect_overwrites reads dirs world).mono ?_ ?_
    · exact fun report after overwrites => ⟨overwrites, overwrites.kept_iff there⟩
    · rintro after ⟨report, overwrites⟩
      exact overwrites.file there

theorem outside_of_aimAt {fs : FileSystem} {root : Path} (leads : fs.aimAt root = some top)
    (apart : ¬top <+: place) : ∀ other, fs.aimAt root = some other → ¬other <+: place := by
  intro other leads'
  obtain rfl := Option.some.inj (leads.symm.trans leads')
  exact apart

namespace Sample

def outsideName : Name := ⟨[0x6F], by decide⟩

def linkedFiles (behind found : ByteArray) : FileSystem :=
  ((((FileSystem.empty.put [] cacheName .dir).put [cacheName] fileName
    (.link (.ofString "../o"))).put [] searchName .dir).put [searchName] fileName (.file found)).put
      [] outsideName (.file behind)

theorem linked_rooted (behind found : ByteArray) :
    (linkedFiles behind found).aimAt Sample.cache.root = some [cacheName] := by
  cbv

theorem linked (behind found : ByteArray) :
    Sample.cache.LinksTo (linkedFiles behind found) "/a" [outsideName] behind where
  link := ⟨[cacheName], fileName, .ofString "../o", by cbv⟩
  readable := by cbv
  leads := by cbv
  outside := outside_of_aimAt (linked_rooted behind found) (by decide)

theorem linked_no_detour (behind found : ByteArray) :
    ¬Sample.cache.Detours (linkedFiles behind found) "/a" := by
  rintro ⟨top, front, rest, target, leads, names, further, link⟩
  obtain rfl := Option.some.inj ((linked_rooted behind found).symm.trans leads)
  have one : (cacheRelative "/a").names = [fileName] := by cbv
  rw [one] at names
  obtain ⟨rfl, -⟩ := (List.append_eq_singleton_iff.1 names.symm).resolve_right (further ·.2)
  have isDir : (linkedFiles behind found).at? [cacheName] = some .dir := by cbv
  simp [isDir] at link

def linkedWorld : World Simulated.Device :=
  ⟨linkedFiles unknown stripped, DeviceSource.sampleDevice []⟩

theorem linked_unsuited : ¬SearchDirs.Suits Sample.reading (Sample.binaries "1") Sample.cache
    linkedWorld.files [outsideName] unknown := by
  rintro (empty | ⟨path, expected, required, -, hasId⟩)
  · exact absurd empty (by decide)
  · have only := (SortedMap.get?_eq_some_iff _ _ _).1 required
    obtain ⟨rfl, rfl⟩ : path = "/a" ∧ expected = "1" := by simpa [Sample.binaries] using only
    exact absurd hasId (by decide)

end Sample

theorem collect_behind_link_sample :
    Sample.cache.LinksTo Sample.linkedWorld.files "/a" [Sample.outsideName] Sample.unknown ∧
      (DeviceSource.collect DeviceSource.sampleInspector (Simulated.bridge .whole)
        DeviceSource.defaultChain (Sample.binaries "1") Sample.cache
        Sample.linkedWorld).2.files.at? [Sample.outsideName] = some (.file Sample.unknown) ∧
      (SearchDirs.collect DeviceSource.sampleInspector [.ofString "l"] (Sample.binaries "1")
        Sample.cache Sample.linkedWorld).2.files.at? [Sample.outsideName] ≠
          some (.file Sample.unknown) := by
  have linked : Sample.cache.LinksTo Sample.linkedWorld.files "/a" [Sample.outsideName]
      Sample.unknown := Sample.linked _ _
  obtain ⟨pulled, searched⟩ := collect_behind_link
    (Inspector.ofContent_reads "sample" Sample.reading) (Simulated.bridge_confined .whole)
    DeviceSource.defaultChain [.ofString "l"] (Sample.binaries "1") Sample.linkedWorld "/a" linked
  refine ⟨linked, pulled.both.resolve_right ?_, fun same => ?_⟩
  · rintro ⟨before, path, expected, rest, -, -, -, split, detours, -⟩
    have only := Sample.only_path (SortedMap.contains_of_get? (SortedMap.get?_of_split split))
    exact Sample.linked_no_detour _ _ (only ▸ detours)
  · have ran : (SearchDirs.collect DeviceSource.sampleInspector [.ofString "l"]
        (Sample.binaries "1") Sample.cache Sample.linkedWorld).1 =
        .ok ⟨SearchDirs.sourceName, ["/a"], [], [], false⟩ := by cbv
    have collected := (searched.of_ok (Prod.ext ran rfl)).2 Sample.linked_unsuited
    exact collected.1 same "/a" (by simp) linked.leads

theorem copied_behind_link :
    Sample.cache.LinksTo Sample.linkedWorld.files "/a" [Sample.outsideName] Sample.unknown ∧
      Sample.reading.buildId Sample.unknown ≠ "1" ∧
      (SearchDirs.collect DeviceSource.sampleInspector [.ofString "l"] (Sample.binaries "1")
        Sample.cache Sample.linkedWorld).2.files.at? [Sample.outsideName] =
          some (.file Sample.stripped) := by
  refine ⟨Sample.linked _ _, by cbv, by cbv⟩

namespace Sample

def detourFiles : FileSystem :=
  ((((FileSystem.empty.put [] cacheName .dir).put [cacheName] fileName
    (.link (.ofString "../l/a"))).put [cacheName] searchName (.link (.ofString "../l"))).put
      [] searchName .dir).put [searchName] fileName (.file unknown)

def detourBinaries : RequiredBinaries := ⟨[("/a", "1"), ("/l/a", "1")], by decide⟩

end Sample

-- So the file behind the link of "/a" is also the cached one of "/l/a", and it is taken away.
theorem taken_behind_detour :
    Sample.cache.LinksTo Sample.detourFiles "/a" [Sample.searchName, Sample.fileName]
        Sample.unknown ∧
      (DeviceSource.collect DeviceSource.sampleInspector (Simulated.bridge .whole)
        DeviceSource.defaultChain Sample.detourBinaries Sample.cache
        ⟨Sample.detourFiles, DeviceSource.sampleDevice []⟩).2.files.at?
          [Sample.searchName, Sample.fileName] = none := by
  have rooted : Sample.detourFiles.aimAt Sample.cache.root = some [Sample.cacheName] := by cbv
  refine ⟨⟨⟨[Sample.cacheName], Sample.fileName, .ofString "../l/a", by cbv⟩, by cbv, by cbv,
    outside_of_aimAt rooted (by decide)⟩, ?_⟩
  have behind : DeviceSource.isPullable "/l/a" = true := by decide +kernel
  simp only [DeviceSource.collect, Sample.detourBinaries, List.foldlM_cons, List.foldlM_nil,
    DeviceSource.collectBinary, DeviceSource.sample_pullable, behind]
  cbv

end BuildIdCache
