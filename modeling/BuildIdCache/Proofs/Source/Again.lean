import BuildIdCache.Proofs.Contained
import BuildIdCache.Proofs.FileSystem.Later
import BuildIdCache.Proofs.Source.Stock
import BuildIdCache.Proofs.Source.Symbols

set_option autoImplicit false

namespace BuildIdCache

open FileSystem

variable {σ : Type} {inspector : Inspector σ} {reading : Reading} {cache : Cache}
  {binaries : RequiredBinaries} {dirs : List Path}

/-- A directory that is apart from a root, and in which filling the root changes nothing. -/
structure FileSystem.Detached (fs : FileSystem) (root dir : Path) (place : Location) : Prop
    extends fs.Apart root dir place where
  clear : ∀ rest, ¬fs.Claims root (place ++ rest)

namespace SearchDirs

section

variable {start now : FileSystem}
  (apart : ∀ dir ∈ dirs, ∃ place, start.Apart cache.root dir place) {path expected : String}
  {file : Path}

include apart

theorem Candidate.beyond (candidate : Candidate reading start dirs path expected file) :
    start.Beyond cache.root file := by
  obtain ⟨dir, member, place, names, leads, found, rfl, -⟩ := candidate
  obtain ⟨top, isApart⟩ := apart dir member
  obtain rfl : top = place := by simpa [isApart.leads] using leads
  exact isApart.beyond names found

theorem candidate_iff (fills : Fills start now cache.root) :
    Candidate reading now dirs path expected file ↔
      Candidate reading start dirs path expected file := by
  refine exists_congr fun dir => and_congr_right fun member => exists_congr fun place =>
    exists_congr fun names => ?_
  obtain ⟨top, isApart⟩ := apart dir member
  rw [isApart.leads, (isApart.fills fills).leads]
  refine and_congr_right fun leads => ?_
  obtain rfl : top = place := by simpa using leads
  rw [isApart.found_iff fills]
  refine and_congr_right fun found => and_congr_right fun called => ?_
  subst called
  rw [Matches, Matches,
    Reading.buildIdAt_congr ((isApart.beyond names found).read now fills)]

end

def Idle (reading : Reading) (cache : Cache) (binaries : RequiredBinaries) (dirs : List Path)
    (fs : FileSystem) : Prop :=
  ∀ path expected file, binaries.get? path = some expected →
    Candidate reading fs dirs path expected file →
      Suffices reading fs file (cache.pathOf path) expected

theorem idle_of_stocks {start now : FileSystem}
    (apart : ∀ dir ∈ dirs, ∃ place, start.Apart cache.root dir place)
    (fills : Fills start now cache.root)
    (stocks : ∀ path expected, binaries.get? path = some expected →
      (∃ file, Candidate reading start dirs path expected file) →
        cache.Stocks (· = path) (fun _ => Satisfies reading start dirs path expected) now) :
    Idle reading cache binaries dirs now := by
  intro path expected file required candidate
  rw [candidate_iff apart fills] at candidate
  obtain ⟨content, readable, hasId, least⟩ :=
    (stocks path expected required ⟨file, candidate⟩).has path rfl
  have enough := least file candidate
  rw [← Reading.levelAt_congr ((candidate.beyond apart).read now fills)] at enough
  exact ⟨content, readable, hasId, not_lt_of_ge enough⟩

section

variable (reads : inspector.Reads reading)

include reads

theorem ends_offer_enough (file : Path) (buildId : String) (report : SourceReport)
    (path expected : String) (world : World σ)
    (enough : expected = buildId → Suffices reading world.files file (cache.pathOf path) expected) :
    (offer inspector cache file buildId report (path, expected)).Ends world
      (fun next after => after.files = world.files ∧ next.collected = report.collected)
      fun _ => False := by
  simp only [offer, Watch.offer]
  split
  · exact ⟨rfl, rfl⟩
  next matched =>
    simp only [copyWatched, Action.ends_bind, Action.ends_lift]
    refine (after_needToCopy reads file _ expected world).mono fun needed asked answer => ?_
    obtain rfl : needed = false := answer.2.2 (enough (not_not.1 matched))
    exact ⟨answer.1, rfl⟩

theorem ends_collect_idle (world : World σ) (idle : Idle reading cache binaries dirs world.files)
    (listed : ∀ dir ∈ dirs, ∃ place, world.files.resolve true dir = .ok (.dir place) ∧
      world.files.listing dir pathLimit [] ≠ none) :
    (collect inspector dirs binaries cache).Ends world
      (fun report after => after.files = world.files ∧ report.collected = []) fun _ => False := by
  rw [collect, Watch.collect, Action.ends_bind]
  refine (Action.ends_foldlM _ (fun _ report after =>
    after.files = world.files ∧ report.collected = []) dirs _ world ⟨rfl, rfl⟩ ?_).mono
    (fun _ _ kept => ⟨kept.1, kept.2⟩) fun _ never => never
  rintro before dir rest report between split ⟨same, none⟩
  have member : dir ∈ dirs := by simp [split]
  obtain ⟨place, leads, lists⟩ := listed dir member
  refine (ends_walk_listed dir _ report between place (same ▸ leads) (same ▸ lists)
    (fun next => next.collected = []) none fun next names first found unchanged => ?_).mono
    (fun _ _ kept => ⟨kept.1.trans same, kept.2⟩) fun _ never => never
  rw [same] at found unchanged
  refine (ends_visit reads cache binaries (dir.extend names) next first (fun _ last after =>
    after.files = world.files ∧ (next.collected = [] → last.collected = [])) _
    (fun after still => ⟨still.trans unchanged, fun none => none⟩) ?_).mono
    (fun _ _ kept => ⟨kept.1.trans same.symm, kept.2⟩) fun _ never => never
  rintro earlier path expected last now sought ⟨still, none⟩
  obtain ⟨required, called⟩ := (mem_sought binaries _ path expected).1 sought
  refine (ends_offer_enough reads _ _ last path expected now fun matched => ?_).mono
    (fun _ _ kept => ⟨kept.1.trans still, fun begun => kept.2.trans (none begun)⟩)
    fun _ never => never
  rw [still]
  exact idle path expected _ required
    ⟨dir, member, place, names, leads, found, rfl, called, unchanged ▸ matched.symm⟩

theorem ends_collect_required (world : World σ) :
    (collect inspector dirs binaries cache).Ends world
      (fun report _ => report.source = sourceName ∧ report.failed = [] ∧
        ∀ path, path ∈ report.collected ∨ path ∈ report.reused → binaries.contains path = true)
      fun _ => True := by
  let known (report : SourceReport) : Prop := report.source = sourceName ∧ report.failed = [] ∧
    ∀ path, path ∈ report.collected ∨ path ∈ report.reused → binaries.contains path = true
  refine (ends_collect reads cache binaries dirs (fun report _ => known report) _ world
    ⟨rfl, rfl, by simp [SourceReport.start]⟩ (fun dir _ names report between holds _ => ?_)
    fun _ _ _ => trivial).mono ?_ fun _ left => left
  · refine ends_visit reads cache binaries (dir.extend names) report between
      (fun _ next _ => known next) _ (fun _ _ => holds) ?_
    rintro before path expected next first sought ⟨source, failed, listed⟩
    have required := SortedMap.contains_of_get? ((mem_sought binaries _ path expected).1 sought).1
    refine (ends_offer reads cache _ _ next path expected first).mono ?_ fun _ _ => trivial
    rintro last after (⟨-, rfl, -⟩ | ⟨-, rfl, -⟩ | ⟨-, rfl, -⟩)
    · exact ⟨source, failed, listed⟩
    · refine ⟨source, failed, fun other isListed => ?_⟩
      rw [mem_addOnce] at isListed
      rcases isListed with collected | reused | rfl
      · exact listed other (.inl collected)
      · exact listed other (.inr reused)
      · exact required
    · refine ⟨source, failed, fun other isListed => ?_⟩
      rw [mem_addOnce] at isListed
      rcases isListed with (collected | rfl) | reused
      · exact listed other (.inl collected)
      · exact required
      · exact listed other (.inr reused)
  · rintro report after ⟨found, ⟨source, failed, listed⟩, rfl⟩
    exact ⟨source, failed, fun path isListed =>
      listed path (isListed.imp_right List.mem_of_mem_filter)⟩

end

theorem ends_require_listed (world : World σ)
    (there : ∀ dir ∈ dirs, ∃ place, world.files.resolve true dir = .ok (.dir place)) :
    (require dirs).Ends world (fun _ after => after = world) fun _ => False := by
  induction dirs with
  | nil => rfl
  | cons dir rest ih =>
    obtain ⟨place, leads⟩ := there dir (by simp)
    rw [require, Action.ends_bind, Action.ends_files,
      if_pos (world.files.isDir_of_resolve dir place leads)]
    exact ih fun other member => there other (by simp [member])

theorem ends_collect_relists (quiet : inspector.Leaves World.files) (world : World σ)
    (plain : world.files.PlainBelow cache.root)
    (detached : ∀ dir ∈ dirs, ∃ place, world.files.Detached cache.root dir place) :
    (collect inspector dirs binaries cache).Ends world
      (fun _ after => ∀ dir ∈ dirs, ∀ place, world.files.resolve true dir = .ok (.dir place) →
        Relists world.files after.files dir place pathLimit []) fun _ => True := by
  have keeps (start : FileSystem) (plain : start.PlainBelow cache.root) :
      Closed inspector cache binaries fun between =>
        KeepsTo start between.files cache.root (Cache.Owns binaries) fun _ => True :=
    closed_keepsTo quiet plain fun _ => trivial
  rw [collect, Watch.collect, Action.ends_bind]
  refine (Action.ends_foldlM _ (fun before _ between =>
    KeepsTo world.files between.files cache.root (Cache.Owns binaries) (fun _ => True) ∧
      ∀ dir ∈ before, ∀ place, world.files.resolve true dir = .ok (.dir place) →
        Relists world.files between.files dir place pathLimit []) dirs _ world
    ⟨.refl _, by simp⟩ ?_).mono (fun _ _ kept => kept.2) fun _ left => left
  rintro before dir rest report between split ⟨kept, relists⟩
  obtain ⟨place, isDetached⟩ := detached dir (by simp [split])
  refine (ends_walk_relists _ (fun next =>
    KeepsTo world.files next.files cache.root (Cache.Owns binaries) fun _ => True)
    (fun next kept => ⟨kept.steady, fun rest =>
      kept.fills.unclaimed _ (.inr (isDetached.clear rest))⟩)
    (fun answer file next kept => ?_) isDetached.leads report between kept).mono ?_
    fun _ left => left
  · refine (((keeps _ plain).ends_visit file answer next kept).and
      ((keeps _ (kept.steady.plainBelow plain)).ends_visit file answer next (.refl _))).mono
      (fun _ after both => ⟨both.1, both.2.steady⟩) fun _ _ => trivial
  · rintro next after ⟨keptAfter, steady, lists⟩
    refine ⟨keptAfter, fun other member top leads => ?_⟩
    rcases List.mem_append.1 member with earlier | here
    · exact fun last later => relists other earlier top leads last (steady.trans later)
    · obtain rfl := List.mem_singleton.1 here
      obtain rfl : place = top := by simpa [isDetached.leads] using leads
      exact lists

end SearchDirs

namespace DeviceSource

variable {bridge : Bridge σ} {chain : List Strategy}

theorem ends_collect_source (world : World σ) :
    (collect inspector bridge chain binaries cache).Ends world
      (fun report _ => report.source = sourceName) fun _ => True := by
  refine ends_collect_of chain world (fun _ report _ => report.source = sourceName) _ _ rfl
    (fun _ _ source => source) (fun before path expected rest report between _ _ source => ?_)
    fun report between _ source => (Action.ends_self _ between).mono (fun _ _ _ => source)
      fun _ _ => trivial
  have tallied : ∀ answer, (tally report path answer).source = sourceName := by
    rintro (_ | _) <;> exact source
  exact ends_collectBinary_of chain report path expected between _ _ (fun _ => source)
    (fun _ _ _ => source) (fun _ _ _ _ _ _ => tallied _) fun _ _ _ _ _ _ _ => trivial

variable {lasts : σ → Prop} {isThere rooted : Bool}
  {symbols : Option ByteArray}
  (constant : bridge.Constant (CanMake chain binaries cache) lasts isThere rooted symbols)
  (confined : bridge.Confined) (reads : inspector.Reads reading)
  (leaves : inspector.Leaves fun world => lasts world.rest)

def Idle (reading : Reading) (cache : Cache) (binaries : RequiredBinaries) (fs : FileSystem) :
    Prop :=
  ∀ path expected, binaries.get? path = some expected → isPullable path = true →
    ∃ content, fs.read (cache.pathOf path) = .ok content ∧
      (expected = "" ∨ reading.buildId content = expected)

theorem Idle.named {fs : FileSystem} {top : Location} (idle : Idle reading cache binaries fs)
    (isDir : fs.resolve true cache.root = .ok (.dir top)) (path : String)
    (asked : Asked binaries path) : (cacheRelative path).names ≠ [] := by
  intro same
  obtain ⟨expected, required⟩ := Option.isSome_iff_exists.1 asked.1
  obtain ⟨content, readable, -⟩ := idle path expected required asked.2
  rw [cache.pathOf_eq_extend, same, read_eq_ok] at readable
  obtain ⟨parent, name, found⟩ := readable
  cases isDir.symm.trans found

include reads in
theorem ends_collectBinary_idle (kept : World σ → Prop) (report : SourceReport)
    (path expected : String) (required : binaries.get? path = some expected) (world : World σ)
    (idle : Idle reading cache binaries world.files) (holds : kept world)
    (asked : (inspector.buildId (cache.pathOf path)).After world fun _ after => kept after) :
    (collectBinary inspector bridge chain cache report (path, expected)).Ends world
      (fun next after => kept after ∧ after.files = world.files ∧
        next.collected = report.collected ∧ next.failed = report.failed) fun _ => False := by
  have asking := after_isTrusted reads (cache.pathOf path) expected world
  have distrusts : ∀ after, isPullable path = true →
      isTrusted inspector (cache.pathOf path) expected world ≠ (false, after) :=
    fun after pullable ran =>
      Bool.noConfusion ((asking.of_run ran).2.2 (idle path expected required pullable))
  refine ends_collectBinary_of chain report path expected world _ _
    (fun _ => ⟨holds, rfl, rfl, rfl⟩) (fun after _ ran => ⟨?_, (asking.of_run ran).1, rfl, rfl⟩)
    (fun after _ pullable ran => absurd ran (distrusts after pullable))
    fun after _ _ pullable ran => absurd ran (distrusts after pullable)
  have still : (isTrusted inspector (cache.pathOf path) expected).After world fun _ after =>
      kept after := after_isTrusted_of _ expected world holds asked
  exact still.of_run ran

include constant confined reads leaves

omit reads leaves in
theorem ends_collect_keepsTo (quiet : inspector.Leaves World.files) (world : World σ)
    (lasting : lasts world.rest) (plain : world.files.PlainBelow cache.root)
    (named : isThere = true → ∀ path, Asked binaries path → (cacheRelative path).names ≠ []) :
    (collect inspector bridge chain binaries cache).Ends world
      (fun _ after =>
        KeepsTo world.files after.files cache.root (Cache.Owns binaries) fun _ => True)
      fun _ => True := by
  cases isThere with
  | false =>
    have answered := constant.available world lasting
    have same := confined.available world
    rcases unavailable : bridge.available world with ⟨answer, first⟩
    obtain ⟨rfl, -⟩ := answered.of_run unavailable
    rw [Action.Ends, collect_of_unavailable chain unavailable]
    exact (same.of_run unavailable) ▸ .refl _
  | true =>
    exact ((closed_keepsTo quiet plain confined (named rfl) trivial fun _ _ _ _ =>
      .inr trivial).ends_collect world (.refl _)).mono (fun _ _ keeps => keeps) fun _ _ => trivial

theorem ends_collect_idle {other : FileSystem} {found : Place}
    (fits : other.resolve true cache.listPath = .ok found) (world : World σ)
    (lasting : lasts world.rest) (plain : world.files.PlainBelow cache.root) {top : Location}
    (isDir : world.files.resolve true cache.root = .ok (.dir top))
    (current : isThere = true → cache.Current (if rooted then symbols else none) world.files)
    (idle : isThere = true → Idle reading cache binaries world.files) :
    (collect inspector bridge chain binaries cache).Ends world
      (fun report after => report.collected = [] ∧ report.failed = [] ∧
        SameBut world.files after.files (top ++ [kernelSymbolsName])
          (world.files.at? (top ++ [kernelSymbolsName])))
      fun _ => False := by
  simp only [collect, Action.ends_bind, Action.ends_lift]
  have answered : bridge.available.After world fun answer first =>
      first.files = world.files ∧ answer = isThere ∧ lasts first.rest :=
    ⟨confined.available world, constant.available world lasting⟩
  refine answered.mono fun answer first now => ?_
  obtain ⟨same, rfl, lasting⟩ := now
  split
  next => exact ⟨rfl, rfl, same ▸ ⟨rfl, fun other => by grind -linarith⟩⟩
  next isThere_ =>
    replace isThere_ : answer = true := by simpa using isThere_
    rw [Action.ends_bind]
    refine (Action.ends_foldlM _ (fun _ report between => lasts between.rest ∧
      between.files = world.files ∧ report.collected = [] ∧ report.failed = [])
      binaries.entries _ first ⟨lasting, same, rfl, rfl⟩ ?_).mono (fun report between kept => ?_)
      fun _ never => never
    · rintro before ⟨path, expected⟩ rest report between split ⟨lasting, same, none, noneFailed⟩
      refine (ends_collectBinary_idle reads (fun next => lasts next.rest) report path expected
        (SortedMap.get?_of_split split) between (same ▸ idle isThere_) lasting ?_).mono
        (fun next after kept => ?_) fun _ never => never
      · exact (leaves.buildId _ between).mono fun _ _ still => still ▸ lasting
      · exact ⟨kept.1, kept.2.1.trans same, kept.2.2.1.trans none, kept.2.2.2.trans noneFailed⟩
    · obtain ⟨lasting, same, none, noneFailed⟩ := kept
      rw [← same] at plain isDir current ⊢
      rw [Action.ends_bind]
      exact (ends_pullKernelSymbols_again constant confined fits between lasting plain isDir
        (current isThere_)).mono (fun _ _ unchanged => ⟨none, noneFailed, unchanged⟩)
        fun _ never => never

end DeviceSource

theorem Sample.detached (cached found : ByteArray) : ∀ dir ∈ [Path.ofString "l"], ∃ place,
    (files cached found).Detached Sample.cache.root dir place := by
  intro dir member
  obtain ⟨place, isApart⟩ := apart cached found dir member
  refine ⟨place, isApart, fun rest => ?_⟩
  rintro (⟨top, leads, within⟩ | ⟨absent, front, left, within, aimed⟩)
  · exact isApart.outside top rest leads within
  · -- All that the root is reached through is there.
    have begins : (files cached found).start Sample.cache.root = [] := by cbv
    have isDir : (files cached found).at? [cacheName] = some .dir := by cbv
    have moves : Sample.cache.root.moves = [.into cacheName] := by cbv
    rw [begins] at aimed
    rw [moves, List.prefix_cons_iff] at within
    rcases within with rfl | ⟨more, rfl, within⟩
    · obtain ⟨here, -⟩ : [] = place ++ rest ∧ _ := by simpa [aim] using aimed
      simp [← here, at?_root] at absent
    · obtain rfl := List.prefix_nil.1 within
      obtain ⟨here, -⟩ : [cacheName] = place ++ rest ∧ _ := by simpa [aim, isDir] using aimed
      simp [← here, isDir] at absent

end BuildIdCache
