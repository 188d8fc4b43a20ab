import BuildIdCache.Proofs.Source.Best

set_option autoImplicit false

namespace BuildIdCache.SearchDirs

open FileSystem

variable {σ : Type} {reading : Reading} {binaries : RequiredBinaries} {cache : Cache}

structure Matched (reading : Reading) (binaries : RequiredBinaries) (cache : Cache)
    (start now : FileSystem) : Prop where
  steady : Steady start now
  files : ∀ place content, now.at? place = some (.file content) →
    start.at? place = some (.file content) ∨
      ∃ path expected, binaries.get? path = some expected ∧
        start.aimAt (cache.pathOf path) = some place ∧
        (reading.buildId content = expected ∨ content = ByteArray.empty)

structure Source (reading : Reading) (file : Path) (asked now : FileSystem) : Prop where
  grows : Grows asked now
  content : ∀ place content, asked.isFile file = true → asked.aimAt file = some place →
    now.at? place = some (.file content) →
      reading.buildId content = reading.buildIdAt asked file ∨ content = ByteArray.empty

section

variable {start asked now after : FileSystem} {file : Path}

theorem Matched.sprouts (matched : Matched reading binaries cache start now)
    (sprouts : Sprouts now after) : Matched reading binaries cache start after where
  steady := matched.steady.trans sprouts.steady
  files place content there := matched.files place content ((sprouts.file place content).1 there)

theorem Source.first (reading : Reading) (asked : FileSystem) (file : Path) :
    Source reading file asked asked where
  grows := .refl asked
  content place content isFile leads there := by
    obtain ⟨old, readable⟩ := (asked.isFile_iff file).1 isFile
    obtain ⟨origin, leads', there'⟩ := asked.place_of_read file old readable
    obtain rfl : place = origin := Option.some.inj (leads.symm.trans leads')
    obtain rfl : content = old := by simpa [there] using there'
    exact .inl (reading.buildIdAt_of_read asked file content readable).symm

theorem Source.copied (source : Source reading file asked now) (settled : asked.Settled file)
    (target : Path) (written : (now.withParents target).copy file target = .ok after) :
    Source reading file asked after ∧ ∃ filled content,
      (now.withParents target).target? target = some filled ∧
      SameBut (now.withParents target) after filled (some (.file content)) ∧
      (reading.buildId content = reading.buildIdAt asked file ∨ content = ByteArray.empty) := by
  have sprouts := now.withParents_sprouts target
  obtain ⟨filled, content, leads, same, old, readable, apart, onItself⟩ :=
    copy_sameBut _ after _ _ written
  have isSource : reading.buildId content = reading.buildIdAt asked file ∨
      content = ByteArray.empty := by
    by_cases here : (now.withParents target).aimAt file = some filled
    · exact .inr (onItself here)
    · obtain rfl := apart here
      have isFile := (asked.isFile_iff file).2
        (settled _ content (source.grows.trans sprouts.grows) readable)
      obtain ⟨origin, reached, there⟩ := place_of_read _ file content readable
      rw [sprouts.steady.aimAt, source.grows.steady.aimAt] at reached
      exact source.content origin content isFile reached ((sprouts.file origin content).1 there)
  refine ⟨⟨(source.grows.trans sprouts.grows).trans (same.grows leads), ?_⟩,
    filled, content, leads, same, isSource⟩
  intro place other isFile reached there
  rw [same.at?] at there
  split at there
  next =>
    obtain rfl : content = other := by simpa using there
    exact isSource
  next => exact source.content place other isFile reached ((sprouts.file place other).1 there)

theorem Matched.copied (matched : Matched reading binaries cache start now) {path expected : String}
    (required : binaries.get? path = some expected) {filled : Location} {content : ByteArray}
    (target : (now.withParents (cache.pathOf path)).target? (cache.pathOf path) = some filled)
    (same : SameBut (now.withParents (cache.pathOf path)) after filled (some (.file content)))
    (suits : reading.buildId content = expected ∨ content = ByteArray.empty) :
    Matched reading binaries cache start after := by
  have sprouts := now.withParents_sprouts (cache.pathOf path)
  have leads := aimAt_of_target? _ _ filled target
  rw [sprouts.steady.aimAt, matched.steady.aimAt] at leads
  have steady := same.steady_of_target? target (by simp)
  refine ⟨(matched.steady.trans sprouts.steady).trans steady, fun place other there => ?_⟩
  rw [same.at?] at there
  split at there
  next here =>
    obtain rfl : content = other := by simpa using there
    exact .inr ⟨path, expected, required, here ▸ leads, suits⟩
  next => exact matched.files place other ((sprouts.file place other).1 there)

end

section

variable {inspector : Inspector σ} (reads : inspector.Reads reading)

include reads

theorem ends_collect_copies (dirs : List Path) (world : World σ)
    (inv : SourceReport → FileSystem → Prop) (first : inv (.start sourceName) world.files)
    (reused : ∀ report fs path, inv report fs →
      inv { report with reused := addOnce report.reused path } fs)
    (sprouted : ∀ report fs after, inv report fs → Sprouts fs after → inv report after)
    (copied : ∀ report now after path expected filled content, inv report now →
      binaries.get? path = some expected →
      (now.withParents (cache.pathOf path)).target? (cache.pathOf path) = some filled →
      SameBut (now.withParents (cache.pathOf path)) after filled (some (.file content)) →
      (reading.buildId content = expected ∨ content = ByteArray.empty) →
      inv { report with collected := addOnce report.collected path } after) :
    (collect inspector dirs binaries cache).Ends world
      (fun report after => ∃ found, inv found after.files ∧
        report = { found with reused := found.reused.filter fun path => path ∉ found.collected })
      fun after => ∃ report, inv report after.files := by
  refine ends_collect reads cache binaries dirs (fun report after => inv report after.files)
    (fun after => ∃ report, inv report after.files) world first
    (fun dir _ names report between holds settled => ?_)
    fun report _ holds => ⟨report, holds⟩
  generalize dir.extend names = file at settled
  refine (ends_visit reads cache binaries file report between
    (fun _ report after => inv report after.files ∧
      Source reading file between.files after.files) _ (fun after same => ?_) ?_).mono
    (fun _ _ h => h.1) fun _ left => left
  · rw [same]
    exact ⟨holds, .first reading between.files file⟩
  · rintro before path expected next now member ⟨holds, source⟩
    have required := ((mem_sought binaries file path expected).1 member).1
    refine (ends_offer reads cache file _ next path expected now).mono ?_ ?_
    · rintro last after (⟨-, rfl, same⟩ | ⟨-, rfl, same, -⟩ | ⟨rfl, rfl, -, written⟩)
      · exact same ▸ ⟨holds, source⟩
      · exact same ▸ ⟨reused next _ path holds, source⟩
      · obtain ⟨later, filled, content, target, same, suits⟩ := source.copied settled _ written
        exact ⟨copied next _ _ path _ filled content holds required target same suits, later⟩
    · intro after made
      exact ⟨next, made ▸ sprouted next _ _ holds (now.files.withParents_sprouts _)⟩

theorem ends_collect_matched (dirs : List Path) (world : World σ) :
    (collect inspector dirs binaries cache).Ends world
      (fun _ after => Matched reading binaries cache world.files after.files)
      fun after => Matched reading binaries cache world.files after.files :=
  (ends_collect_copies reads dirs world (fun _ fs => Matched reading binaries cache world.files fs)
    ⟨.refl _, fun _ _ there => .inl there⟩ (fun _ _ _ matched => matched)
    (fun _ _ _ matched sprouts => matched.sprouts sprouts)
    fun _ _ _ _ _ _ _ matched required target same suits =>
      matched.copied required target same suits).mono
    (fun _ _ h => h.elim fun _ found => found.1) fun _ h => h.elim fun _ left => left

end

/-- A file is copied for a path if it has the build-id that is expected of the path. Where none is
known, any file of the same name without a build-id has it, and replaces what is cached. -/
theorem collect_copies_matching {inspector : Inspector σ} (reads : inspector.Reads reading)
    (dirs : List Path) (world : World σ) :
    Matched reading binaries cache world.files
        (collect inspector dirs binaries cache world).2.files ∧
      ∀ report after, collect inspector dirs binaries cache world = (.ok report, after) →
        world.files.PlainBelow cache.root →
        (∀ dir ∈ dirs, ∃ place, world.files.Apart cache.root dir place) →
        cache.Independent binaries world.files →
        ∀ path place, binaries.get? path = some "" →
          world.files.aimAt (cache.pathOf path) = some place →
          (∀ old, world.files.at? place = some (.file old) → reading.buildId old ≠ "") →
          (after.files.at? place ≠ world.files.at? place ↔
            ∃ file, Candidate reading world.files dirs path "" file) := by
  refine ⟨(ends_collect_matched reads dirs world).both, ?_⟩
  intro report after ran plain apart independent path place required leads cached
  obtain ⟨fills, outcome⟩ := (ends_collect_best reads plain independent required dirs apart world
    rfl).of_ok ran
  constructor
  · intro changed
    by_contra none
    have same := outcome.untouched (not_exists.1 none) place [] leads
    exact changed (by simpa using same)
  · intro candidates same
    obtain ⟨content, readable, best⟩ := outcome.best candidates
    obtain ⟨place', leads', there⟩ := after.files.place_of_read _ content readable
    rw [fills.steady.aimAt, leads] at leads'
    obtain rfl := Option.some.inj leads'
    exact cached content (same ▸ there) best.hasId

theorem collect_copies_matching_sample :
    (collect (.ofContent "sample" Sample.reading.buildId Sample.reading.sections : Inspector Unit)
      [.ofString "l"] (Sample.binaries "") Sample.cache
      ⟨Sample.files Sample.withSymbols Sample.unknown, ()⟩).2.files.at?
        [Sample.cacheName, Sample.fileName] ≠ some (.file Sample.withSymbols) := by
  have there : (Sample.files Sample.withSymbols Sample.unknown).at?
      [Sample.cacheName, Sample.fileName] = some (.file Sample.withSymbols) := by cbv
  have known : ∀ old, (Sample.files Sample.withSymbols Sample.unknown).at?
      [Sample.cacheName, Sample.fileName] = some (.file old) → Sample.reading.buildId old ≠ "" := by
    intro old cached
    obtain rfl : Sample.withSymbols = old := by simpa [there] using cached
    decide
  rw [← there]
  exact ((collect_copies_matching (Inspector.ofContent_reads "sample" Sample.reading)
    [.ofString "l"] ⟨Sample.files Sample.withSymbols Sample.unknown, ()⟩).2
    ⟨sourceName, ["/a"], [], [], false⟩ _ (Prod.ext (by cbv) rfl) (Sample.plain _ _)
    (Sample.apart _ _) (Sample.independent "" _) "/a" _ (by cbv) (by cbv) known).2
    ⟨_, Sample.candidate _ _⟩

theorem unknown_replaces_known :
    (Sample.files Sample.withSymbols Sample.unknown).read (Sample.cache.pathOf "/a") =
        .ok Sample.withSymbols ∧
      (collect (.ofContent "sample" Sample.reading.buildId Sample.reading.sections : Inspector Unit)
        [.ofString "l"] (Sample.binaries "") Sample.cache
        ⟨Sample.files Sample.withSymbols Sample.unknown, ()⟩).2.files.read
          (Sample.cache.pathOf "/a") = .ok Sample.unknown ∧
      Sample.reading.buildId Sample.unknown = "" := by
  refine ⟨by cbv, by cbv, by cbv⟩

end BuildIdCache.SearchDirs
