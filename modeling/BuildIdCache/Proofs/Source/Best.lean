import BuildIdCache.Proofs.Cache
import BuildIdCache.Proofs.FileSystem.Apart

set_option autoImplicit false

namespace BuildIdCache

open FileSystem

variable {σ : Type} {reading : Reading} {binaries : RequiredBinaries} {cache : Cache}

/-- The cached files of the required paths are apart: none is on the way to another, nor is what
is below it. -/
def Cache.Independent (cache : Cache) (binaries : RequiredBinaries) (fs : FileSystem) : Prop :=
  ∀ path other, binaries.contains path → binaries.contains other → path ≠ other →
    ∀ place passed, fs.aimAt (cache.pathOf path) = some place →
      fs.Passes (cache.pathOf other) passed → ¬place <+: passed

/-- Where the way to the root does not go through the root itself, it is enough that no cached file
is spelled as one above another. -/
theorem Cache.independent_of_names (fs : FileSystem) (plain : fs.PlainBelow cache.root)
    (direct : ∀ top place, fs.aimAt cache.root = some top → fs.Passes cache.root place →
      top <+: place → place = top)
    (names : ∀ path other, binaries.contains path → binaries.contains other → path ≠ other →
      ¬(cacheRelative path).names <+: (cacheRelative other).names) :
    cache.Independent binaries fs := by
  intro path other required required' apart place passed leads passes within
  have separate := names path other required required' apart
  rw [cache.pathOf_eq_extend, fs.aimAt_extend _ _ plain, Option.map_eq_some_iff] at leads
  obtain ⟨top, reached, rfl⟩ := leads
  rcases fs.passes_extend cache.root _ passed plain passes with
    onWay | ⟨top', front, reached', spelled, rfl⟩
  · have same := direct top passed reached onWay ((List.prefix_append _ _).trans within)
    have empty : (cacheRelative path).names = [] := by
      have shorter := within.length_le
      rw [same, List.length_append] at shorter
      exact List.length_eq_zero_iff.1 (by omega)
    exact separate (empty ▸ List.nil_prefix)
  · obtain rfl := Option.some.inj (reached.symm.trans reached')
    exact separate (((List.prefix_append_right_inj top).1 within).trans spelled)

namespace SearchDirs

def Matches (reading : Reading) (fs : FileSystem) (path expected : String) (file : Path) : Prop :=
  file.fileName?.bind Name.toString? = some (fileNameOf path) ∧
    reading.buildIdAt fs file = expected

def Candidate (reading : Reading) (fs : FileSystem) (dirs : List Path) (path expected : String)
    (file : Path) : Prop :=
  ∃ dir ∈ dirs, ∃ place names, fs.resolve true dir = .ok (.dir place) ∧ fs.Found dir place names ∧
    file = dir.extend names ∧ Matches reading fs path expected file

theorem offered_congr {p : (Path → Prop) → Prop} {offered others : Path → Prop} (holds : p offered)
    (same : ∀ file, others file ↔ offered file) : p others := by
  obtain rfl : others = offered := funext fun file => propext (same file)
  exact holds

section

variable {inspector : Inspector σ} (reads : inspector.Reads reading) {start : FileSystem}
  {path expected : String} (required : binaries.get? path = some expected)
  (inv : (Path → Prop) → SourceReport → FileSystem → Prop)
  (each : ∀ file, start.Beyond cache.root file → ∀ offered report other wanted,
    binaries.get? other = some wanted → ∀ world : World σ, Fills start world.files cache.root →
      inv offered report world.files →
        (offer inspector cache file (reading.buildIdAt start file) report
          (other, wanted)).Ends world
          (fun next after => Fills start after.files cache.root ∧
            inv (fun candidate => offered candidate ∨ candidate = file ∧ other = path ∧
              reading.buildIdAt start file = expected) next after.files)
          fun _ => True)

include reads required each

theorem ends_visit_offered (file : Path) (beyond : start.Beyond cache.root file)
    (offered : Path → Prop) (report : SourceReport) (world : World σ)
    (fills : Fills start world.files cache.root) (holds : inv offered report world.files) :
    (visit inspector cache binaries.byFileName report file).Ends world
      (fun next after => Fills start after.files cache.root ∧
        inv (fun candidate => offered candidate ∨
          candidate = file ∧ Matches reading start path expected file) next after.files)
      fun _ => True := by
  refine (ends_visit reads cache binaries file report world
    (fun before next after => Fills start after.files cache.root ∧
      inv (fun candidate => offered candidate ∨ candidate = file ∧ (path, expected) ∈ before ∧
        reading.buildIdAt start file = expected) next after.files) _ (fun after same => ?_) ?_).mono
    ?_ fun _ left => left
  · rw [same]
    exact ⟨fills, offered_congr (p := (inv · report world.files)) holds (by simp)⟩
  · rintro before other wanted next between member ⟨fillsNow, holdsNow⟩
    have required' := ((mem_sought binaries file other wanted).1 member).1
    rw [Reading.buildIdAt_congr (beyond.read world.files fills)]
    refine (each file beyond _ next other wanted required' between fillsNow holdsNow).mono ?_
      fun _ left => left
    rintro last after ⟨fillsAfter, holdsAfter⟩
    have same : (path, expected) = (other, wanted) ↔ other = path := by
      constructor
      · rintro ⟨⟩
        rfl
      · rintro rfl
        rw [Option.some.inj (required'.symm.trans required)]
    refine ⟨fillsAfter, offered_congr (p := (inv · last after.files)) holdsAfter fun candidate =>
      ?_⟩
    rw [List.mem_append, List.mem_singleton, same]
    tauto
  · rintro next after ⟨fillsAfter, holdsAfter⟩
    refine ⟨fillsAfter, offered_congr (p := (inv · next after.files)) holdsAfter fun candidate =>
      ?_⟩
    rw [mem_sought, Matches]
    simp [required]

theorem ends_walk_offered (dir : Path) (place : Location) (apart : start.Apart cache.root dir place)
    (offered : Path → Prop) (report : SourceReport) (world : World σ)
    (fills : Fills start world.files cache.root) (holds : inv offered report world.files) :
    (walk dir (visit inspector cache binaries.byFileName) report).Ends world
      (fun next after => Fills start after.files cache.root ∧
        inv (fun candidate => offered candidate ∨ ∃ names, start.Found dir place names ∧
          candidate = dir.extend names ∧ Matches reading start path expected candidate)
          next after.files)
      fun _ => True := by
  have entered := start.enters_of_resolve dir place apart.leads
  refine (ends_walk_found start dir place _
    (fun visited next after => Fills start after.files cache.root ∧
      inv (fun candidate => offered candidate ∨ ∃ names ∈ visited, candidate = dir.extend names ∧
        Matches reading start path expected candidate) next after.files) _ ?_ ?_
    (fun _ _ _ _ => trivial) report world
    ⟨fills, offered_congr (p := (inv · report world.files)) holds (by simp)⟩ entered.aimAt
    entered.isDir).mono ?_ fun _ left => left
  · rintro visited next between ⟨fillsNow, -⟩
    exact apart.sees fillsNow
  · rintro visited names next between ⟨fillsNow, holdsNow⟩ found
    refine (ends_visit_offered reads required inv each (dir.extend names) (apart.beyond names found)
      _ next between fillsNow holdsNow).mono ?_ fun _ left => left
    rintro last after ⟨fillsAfter, holdsAfter⟩
    refine ⟨fillsAfter, offered_congr (p := (inv · last after.files)) holdsAfter fun candidate =>
      ?_⟩
    simp only [List.mem_append, List.mem_singleton, or_and_right, exists_or, exists_eq_left,
      or_assoc]
    refine or_congr_right (or_congr_right ⟨?_, ?_⟩) <;> rintro ⟨rfl, matching⟩ <;>
      exact ⟨rfl, matching⟩
  · rintro last after ⟨visited, ⟨fillsAfter, holdsAfter⟩, lists⟩
    exact ⟨fillsAfter, offered_congr (p := (inv · last after.files)) holdsAfter
      fun candidate => by simp only [lists.2]⟩

theorem ends_collect_offered (dirs : List Path)
    (apart : ∀ dir ∈ dirs, ∃ place, start.Apart cache.root dir place) (world : World σ)
    (begins : world.files = start) (first : inv (fun _ => False) (.start sourceName) start) :
    (collect inspector dirs binaries cache).Ends world
      (fun report after => Fills start after.files cache.root ∧
        ∃ found, inv (Candidate reading start dirs path expected) found after.files ∧
          report = { found with reused := found.reused.filter fun path => path ∉ found.collected })
      fun _ => True := by
  simp only [collect, Watch.collect, Action.ends_bind]
  refine (Action.ends_foldlM _ (fun before next after => Fills start after.files cache.root ∧
    inv (Candidate reading start before path expected) next after.files) dirs _ world ?_ ?_).mono
    (fun found _ holds => ⟨holds.1, found, holds.2, rfl⟩) fun _ left => left
  · rw [begins]
    exact ⟨.refl _ _, offered_congr (p := (inv · _ start)) first (by simp [Candidate])⟩
  · rintro before dir rest next between split ⟨fillsNow, holdsNow⟩
    obtain ⟨place, apartHere⟩ := apart dir (by simp [split])
    refine (ends_walk_offered reads required inv each dir place apartHere _ next between
      fillsNow holdsNow).mono ?_ fun _ left => left
    rintro last after ⟨fillsAfter, holdsAfter⟩
    refine ⟨fillsAfter, offered_congr (p := (inv · last after.files)) holdsAfter fun candidate =>
      ?_⟩
    simp [Candidate, or_and_right, exists_or, apartHere.leads]

end

/-- A content that has the build-id that is expected and is the least stripped of some files and of
what could be read at a path before. It is the content of one of them. -/
structure Best (reading : Reading) (start : FileSystem) (target : Path) (expected : String)
    (offered : Path → Prop) (content : ByteArray) : Prop where
  hasId : reading.buildId content = expected
  origin : (∃ file, offered file ∧ start.read file = .ok content) ∨
    ∃ place, start.aimAt target = some place ∧ start.at? place = some (.file content)
  least : ∀ file, offered file → reading.level content ≤ reading.levelAt start file
  improves : ∀ old, start.read target = .ok old → reading.buildId old = expected →
    reading.level content ≤ reading.level old

/-- What has become of a cached file when some files were offered for it. Without any, what was
there is untouched, with all below it. -/
structure Outcome (reading : Reading) (start now : FileSystem) (target : Path) (expected : String)
    (offered : Path → Prop) : Prop where
  untouched : (∀ file, ¬offered file) → ∀ place rest, start.aimAt target = some place →
    now.at? (place ++ rest) = start.at? (place ++ rest)
  best : (∃ file, offered file) → ∃ content, now.read target = .ok content ∧
    Best reading start target expected offered content

section

variable {start now after : FileSystem} {target file : Path} {expected : String}
  {offered : Path → Prop}

theorem Outcome.none (target : Path) (expected : String) :
    Outcome reading start start target expected fun _ => False :=
  ⟨fun _ _ _ _ => rfl, fun ⟨_, absurd⟩ => absurd.elim⟩

theorem Outcome.congr {others : Path → Prop}
    (outcome : Outcome reading start now target expected offered)
    (same : ∀ file, others file ↔ offered file) :
    Outcome reading start now target expected others :=
  offered_congr outcome same

theorem Outcome.elsewhere (outcome : Outcome reading start now target expected offered)
    (steady : Steady start now) (steady' : Steady now after)
    (same : ∀ place rest, start.aimAt target = some place →
      after.at? (place ++ rest) = now.at? (place ++ rest)) :
    Outcome reading start after target expected offered where
  untouched noneOffered place rest leads :=
    (same place rest leads).trans (outcome.untouched noneOffered place rest leads)
  best someOffered := by
    obtain ⟨content, readable, others⟩ := outcome.best someOffered
    obtain ⟨place, leads, there⟩ := now.place_of_read target content readable
    have unchanged := same place [] (by rwa [← steady.aimAt])
    rw [List.append_nil] at unchanged
    exact ⟨content, steady'.read target place content content readable leads
      (unchanged.trans there), others⟩

theorem Outcome.read_old (outcome : Outcome reading start now target expected offered)
    (steady : Steady start now) (noneOffered : ∀ file, ¬offered file) (old : ByteArray)
    (readable : start.read target = .ok old) : now.read target = .ok old := by
  obtain ⟨place, leads, there⟩ := start.place_of_read target old readable
  have same := outcome.untouched noneOffered place [] leads
  rw [List.append_nil] at same
  exact steady.read target place old old readable leads (same.trans there)

theorem Outcome.suffices (outcome : Outcome reading start now target expected offered)
    (steady : Steady start now) (level : reading.levelAt now file = reading.levelAt start file)
    (enough : Suffices reading now file target expected) :
    Outcome reading start now target expected fun other => offered other ∨ other = file where
  untouched noneOffered := absurd (.inr rfl) (noneOffered file)
  best _ := by
    obtain ⟨cached, readable, hasId, notLess⟩ := enough
    rw [level] at notLess
    have forFile := StrippedLevel.le_of_not_lt notLess
    refine ⟨cached, readable, ?_⟩
    -- Without an offer before, the cached file is the one from the start.
    by_cases someOffered : ∃ other, offered other
    · obtain ⟨content, again, best⟩ := outcome.best someOffered
      obtain rfl : cached = content := by simpa [readable] using again
      refine ⟨hasId, ?_, fun other isOffered => ?_, best.improves⟩
      · exact best.origin.imp_left fun ⟨other, isOffered, same⟩ => ⟨other, .inl isOffered, same⟩
      · cases isOffered with
        | inl isOffered => exact best.least other isOffered
        | inr same => exact same ▸ forFile
    · have noneOffered := not_exists.1 someOffered
      obtain ⟨place, leads, there⟩ := now.place_of_read target cached readable
      rw [steady.aimAt] at leads
      have same := outcome.untouched noneOffered place [] leads
      rw [List.append_nil, there] at same
      refine ⟨hasId, .inr ⟨place, leads, same.symm⟩, fun other isOffered => ?_,
        fun old there' _ => ?_⟩
      · cases isOffered with
        | inl isOffered => exact absurd isOffered (noneOffered other)
        | inr same => exact same ▸ forFile
      · have again := outcome.read_old steady noneOffered old there'
        obtain rfl : cached = old := by simpa [readable] using again
        exact le_refl _

theorem Outcome.copied (outcome : Outcome reading start now target expected offered)
    (steady : Steady start now) (content : ByteArray) (source : start.read file = .ok content)
    (still : now.read file = .ok content) (hasId : reading.buildId content = expected)
    (lacking : ¬Suffices reading now file target expected)
    (written : after.read target = .ok content) :
    Outcome reading start after target expected fun other => offered other ∨ other = file where
  untouched noneOffered := absurd (.inr rfl) (noneOffered file)
  best _ := by
    have less : ∀ cached, now.read target = .ok cached → reading.buildId cached = expected →
        reading.level content ≤ reading.level cached := by
      intro cached readable same
      by_contra notLess
      refine lacking ⟨cached, readable, same, fun below => notLess ?_⟩
      rw [reading.levelAt_of_read now file content still] at below
      exact below.le
    refine ⟨content, written, hasId, .inl ⟨file, .inr rfl, source⟩, fun other isOffered => ?_,
      fun old there same => ?_⟩
    · cases isOffered with
      | inl isOffered =>
        obtain ⟨cached, readable, best⟩ := outcome.best ⟨other, isOffered⟩
        exact (less cached readable best.hasId).trans (best.least other isOffered)
      | inr same =>
        rw [same]
        exact (reading.levelAt_of_read start file content source).ge
    · by_cases someOffered : ∃ other, offered other
      · obtain ⟨cached, readable, best⟩ := outcome.best someOffered
        exact (less cached readable best.hasId).trans (best.improves old there same)
      · exact less old (outcome.read_old steady (not_exists.1 someOffered) old there) same

end

section

variable {start : FileSystem} (plain : start.PlainBelow cache.root) {path expected : String}
  {file : Path} {offered : Path → Prop} {now after : FileSystem}
  (fills : Fills start now cache.root)

include plain fills

theorem read_beyond (beyond : start.Beyond cache.root file)
    (written : (now.withParents (cache.pathOf path)).copy file (cache.pathOf path) = .ok after) :
    ∃ content, start.read file = .ok content ∧ now.read file = .ok content ∧
      after.read (cache.pathOf path) = .ok content := by
  obtain ⟨-, -, -, -, content, again, -⟩ := copy_sameBut _ _ _ _ written
  have parents : Fills start (now.withParents (cache.pathOf path)) cache.root :=
    fills.trans (fills_of_withParents (fills.steady.plainBelow plain) (cacheRelative path).names)
  have source := (beyond.read _ parents content).1 again
  have readable := (beyond.read now fills content).2 source
  have apart : ∀ place, (now.withParents (cache.pathOf path)).target? (cache.pathOf path) =
      some place → now.aimAt file ≠ some place := by
    intro place filled leads
    have aimed := aimAt_of_target? _ _ place filled
    rw [parents.steady.aimAt, cache.pathOf_eq_extend, start.aimAt_extend _ _ plain,
      Option.map_eq_some_iff] at aimed
    obtain ⟨top, reached, rfl⟩ := aimed
    rw [fills.steady.aimAt] at leads
    exact beyond.outside content _ top source leads reached (List.prefix_append _ _)
  exact ⟨content, source, readable, (read_copied _ _ file _ content readable apart written).1⟩

variable (outcome : Outcome reading start now (cache.pathOf path) expected offered)

include outcome

theorem Outcome.written (beyond : start.Beyond cache.root file)
    (matched : reading.buildIdAt start file = expected)
    (lacking : ¬Suffices reading now file (cache.pathOf path) expected)
    (written : (now.withParents (cache.pathOf path)).copy file (cache.pathOf path) = .ok after) :
    Outcome reading start after (cache.pathOf path) expected fun other =>
      offered other ∨ other = file := by
  obtain ⟨content, source, readable, copied⟩ := read_beyond plain fills beyond written
  have hasId : reading.buildId content = expected := by
    rw [← matched, reading.buildIdAt_of_read start file content source]
  exact outcome.copied fills.steady content source readable hasId lacking copied

theorem Outcome.written_elsewhere (independent : cache.Independent binaries start) (other : String)
    (required : binaries.contains path) (required' : binaries.contains other) (apart : other ≠ path)
    (written : (now.withParents (cache.pathOf other)).copy file (cache.pathOf other) = .ok after) :
    Outcome reading start after (cache.pathOf path) expected offered := by
  have steady := (fills_of_copied (fills.steady.plainBelow plain) _ file written).steady
  refine outcome.elsewhere fills.steady steady fun place rest leads => ?_
  cases copied_at? _ _ file _ written (place ++ rest) with
  | inl unchanged => exact unchanged
  | inr changed =>
    have passes := (fills.steady.passes _ _).1 changed.1
    exact absurd (List.prefix_append place rest)
      (independent path other required required' (Ne.symm apart) place _ leads passes)

end

section

variable {inspector : Inspector σ} (reads : inspector.Reads reading) {start : FileSystem}
  (plain : start.PlainBelow cache.root) (independent : cache.Independent binaries start)
  {path expected : String} (required : binaries.get? path = some expected)

include reads plain independent required

theorem ends_offer_best (file : Path) (beyond : start.Beyond cache.root file)
    (offered : Path → Prop) (report : SourceReport) (other wanted : String)
    (required' : binaries.get? other = some wanted) (world : World σ)
    (fills : Fills start world.files cache.root)
    (outcome : Outcome reading start world.files (cache.pathOf path) expected offered) :
    (offer inspector cache file (reading.buildIdAt start file) report (other, wanted)).Ends world
      (fun _ after => Fills start after.files cache.root ∧
        Outcome reading start after.files (cache.pathOf path) expected fun candidate =>
          offered candidate ∨
            candidate = file ∧ other = path ∧ reading.buildIdAt start file = expected)
      fun _ => True := by
  have same_wanted : other = path → wanted = expected := by
    rintro rfl
    exact Option.some.inj (required'.symm.trans required)
  refine (ends_offer reads cache file _ report other wanted world).mono ?_ fun _ _ => trivial
  rintro next after (⟨apart, -, same⟩ | ⟨matched, -, same, enough⟩ | ⟨matched, -, lacking, written⟩)
  · rw [same]
    refine ⟨fills, outcome.congr fun candidate => ?_⟩
    simp only [not_wanted required required' apart, and_false, or_false]
  · rw [same]
    by_cases here : other = path
    · subst here
      obtain rfl := same_wanted rfl
      have level : reading.levelAt world.files file = reading.levelAt start file :=
        Reading.levelAt_congr (beyond.read world.files fills)
      refine ⟨fills, (outcome.suffices fills.steady level enough).congr ?_⟩
      simp [← matched]
    · exact ⟨fills, outcome.congr fun candidate => by simp [here]⟩
  · have plainNow := fills.steady.plainBelow plain
    refine ⟨fills.trans (fills_of_copied plainNow _ file written), ?_⟩
    by_cases here : other = path
    · subst here
      obtain rfl := same_wanted rfl
      refine (outcome.written plain fills beyond matched.symm lacking written).congr ?_
      simp [← matched]
    · refine (outcome.written_elsewhere plain fills independent other ?_ ?_ here written).congr
        (by simp [here])
      · simp [SortedMap.contains, required]
      · simp [SortedMap.contains, required']

theorem ends_collect_best (dirs : List Path)
    (apart : ∀ dir ∈ dirs, ∃ place, start.Apart cache.root dir place) (world : World σ)
    (begins : world.files = start) :
    (collect inspector dirs binaries cache).Ends world
      (fun _ after => Fills start after.files cache.root ∧
        Outcome reading start after.files (cache.pathOf path) expected
          (Candidate reading start dirs path expected))
      fun _ => True :=
  (ends_collect_offered reads required
    (fun offered _ now => Outcome reading start now (cache.pathOf path) expected offered)
    (ends_offer_best reads plain independent required) dirs apart world begins
      (Outcome.none _ _)).mono
    (fun _ _ ⟨fills, _, outcome, _⟩ => ⟨fills, outcome⟩) fun _ left => left

end

end SearchDirs

namespace Sample

theorem apart (cached found : ByteArray) :
    ∀ dir ∈ [Path.ofString "l"], ∃ place, (files cached found).Apart Sample.cache.root dir
      place := by
  intro dir member
  obtain rfl := List.mem_singleton.1 member
  exact ⟨_, apart_of_noLinks _ _ _ [searchName] [cacheName] (by cbv) (by cbv) (by decide)
    (by decide) (noLinks cached found)⟩

theorem independent (expected : String) (fs : FileSystem) :
    Sample.cache.Independent (Sample.binaries expected) fs :=
  fun _ _ required required' apart =>
    absurd ((only_path required).trans (only_path required').symm) apart

theorem candidate (cached found : ByteArray) :
    SearchDirs.Candidate Sample.reading (files cached found) [.ofString "l"] "/a"
      (Sample.reading.buildId found) ((Path.ofString "l").extend [fileName]) :=
  ⟨_, List.mem_singleton_self _, [searchName], [fileName], by cbv, ⟨by simp, .inl ⟨found, by cbv⟩⟩,
    rfl, by cbv, Reading.buildIdAt_of_read _ _ _ found (by cbv)⟩

end Sample

namespace SearchDirs

theorem collect_best {inspector : Inspector σ} (reads : inspector.Reads reading) (dirs : List Path)
    (world after : World σ) (report : SourceReport) (plain : world.files.PlainBelow cache.root)
    (apart : ∀ dir ∈ dirs, ∃ place, world.files.Apart cache.root dir place)
    (independent : cache.Independent binaries world.files)
    (ran : collect inspector dirs binaries cache world = (.ok report, after))
    (path expected : String) (required : binaries.get? path = some expected) :
    ((∃ file, Candidate reading world.files dirs path expected file) →
      ∃ parent name content,
        after.files.resolve false (cache.pathOf path) = .ok (.file parent name content) ∧
        Best reading world.files (cache.pathOf path) expected
          (Candidate reading world.files dirs path expected) content) ∧
    ((∀ file, ¬Candidate reading world.files dirs path expected file) →
      after.files.aimAt (cache.pathOf path) = world.files.aimAt (cache.pathOf path) ∧
      ∀ place rest, world.files.aimAt (cache.pathOf path) = some place →
        after.files.at? (place ++ rest) = world.files.at? (place ++ rest)) := by
  obtain ⟨fills, outcome⟩ := (ends_collect_best reads plain independent required dirs apart world
    rfl).of_ok ran
  refine ⟨fun candidates => ?_, fun none => ⟨fills.steady.aimAt _, outcome.untouched none⟩⟩
  obtain ⟨content, readable, best⟩ := outcome.best candidates
  obtain ⟨file, -, -, -, -, -, -, -, called, -⟩ := candidates
  obtain ⟨name, -, text⟩ := Option.bind_eq_some_iff.1 called
  obtain ⟨parent, last, found⟩ := after.files.resolve_of_read cache.root _ content
    (fills.steady.plainBelow plain) (names_ne_nil_of_called path name text) readable
  exact ⟨parent, last, content, found, best⟩

theorem collect_best_sample :
    ∃ parent name content,
      (collect (.ofContent "sample" Sample.reading.buildId Sample.reading.sections : Inspector Unit)
        [.ofString "l"] (Sample.binaries "1") Sample.cache
        ⟨Sample.files Sample.stripped Sample.withSymbols, ()⟩).2.files.resolve false
          (Sample.cache.pathOf "/a") = .ok (.file parent name content) ∧
      Sample.reading.level content ≤ Sample.reading.level Sample.withSymbols := by
  obtain ⟨parent, name, content, found, best⟩ := (collect_best
    (Inspector.ofContent_reads "sample" Sample.reading) [.ofString "l"]
    ⟨Sample.files Sample.stripped Sample.withSymbols, ()⟩ _ ⟨sourceName, ["/a"], [], [], false⟩
    (Sample.plain _ _) (Sample.apart _ _) (Sample.independent "1" _)
    (Prod.ext (by cbv) rfl) "/a" "1" (by cbv)).1 ⟨_, Sample.candidate _ _⟩
  have offered : Sample.reading.levelAt (Sample.files Sample.stripped Sample.withSymbols)
      ((Path.ofString "l").extend [Sample.fileName]) = Sample.reading.level Sample.withSymbols := by
    cbv
  exact ⟨parent, name, content, found, offered ▸ best.least _ (Sample.candidate _ _)⟩

end SearchDirs

end BuildIdCache
