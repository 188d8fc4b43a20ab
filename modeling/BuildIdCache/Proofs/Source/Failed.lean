import BuildIdCache.Device.Adb
import BuildIdCache.Proofs.FileSystem.Reread
import BuildIdCache.Proofs.Source.Device

set_option autoImplicit false

namespace BuildIdCache

open FileSystem

variable {σ : Type}

def Bridge.Tidy (bridge : Bridge σ) : Prop :=
  ∀ source target world, (bridge.pull source target).After world fun pulled after =>
    pulled = false → world.files.isFile target = false → after.files.isFile target = false

theorem Simulated.bridge_tidy (part : Part σ Simulated.Device) : (Simulated.bridge part).Tidy := by
  intro source target world
  simp only [Simulated.bridge, Effect.after_bind, Effect.after_read]
  split
  · exact fun _ absent => absent
  · simp only [Effect.after_bind, Effect.after_files]
    split
    · exact fun failed => by cases failed
    · exact fun _ absent => absent

namespace DeviceSource

variable {inspector : Inspector σ} {bridge : Bridge σ} {chain : List Strategy}
  {binaries : RequiredBinaries} {cache : Cache}

section

variable (confined : bridge.Confined) (tidy : bridge.Tidy)

include confined tidy

theorem after_attempt_absent (path : String) (target : Path) (strategy : Strategy)
    (world : World σ) :
    (attempt bridge path target strategy).After world fun pulled after =>
      pulled = false → world.files.isFile target = false → after.files.isFile target = false := by
  apply after_attempt_of path target strategy world fun _ => tidy path target world
  intro dir _
  refine (confined.shell _ world).mono fun _ first same => ?_
  rw [← same]
  refine ⟨fun _ _ absent => absent, fun _ => ?_⟩
  refine (tidy _ target first).mono fun pulled second untouched => ?_
  refine ⟨fun failed _ => untouched failed, fun _ => ?_⟩
  exact (confined.shell _ second).mono fun _ third _ never => by cases never

theorem after_pullFile_absent (chain : List Strategy) (path : String) (target : Path)
    (world : World σ) (absent : world.files.isFile target = false) :
    (pullFile bridge path target chain).After world fun pulled after =>
      pulled = false → after.files.isFile target = false := by
  apply after_pullFile_of path target chain world fun _ => absent
  intro strategy _ first untouched
  exact (after_attempt_absent confined tidy path target strategy first).mono
    fun _ _ further failed => further failed (untouched rfl)

end

/-- In a run, a path is pulled to where no file is, and no attempt works. -/
structure Fails (inspector : Inspector σ) (bridge : Bridge σ) (chain : List Strategy)
    (binaries : RequiredBinaries) (cache : Cache) (world : World σ) (path : String)
    (first last : World σ) : Prop where
  begins : Pulls inspector bridge chain binaries cache world path first
  absent : first.files.isFile (cache.pathOf path) = false
  fails : pullFile bridge path (cache.pathOf path) chain first = (false, last)

structure Failing (inspector : Inspector σ) (bridge : Bridge σ) (chain : List Strategy)
    (binaries : RequiredBinaries) (cache : Cache) (world : World σ)
    (before : List (String × String)) (report : SourceReport) (between : World σ) : Prop where
  plain : between.files.PlainBelow cache.root
  done : ∀ path ∈ report.failed, path ∈ before.map Prod.fst
  left : ∀ path ∈ report.failed, (cacheRelative path).names ≠ [] → ∃ first last,
    Fails inspector bridge chain binaries cache world path first last ∧
      Rereads last.files between.files cache.root (cacheRelative path).names

section

variable {world : World σ}

theorem Failing.mono {before : List (String × String)} {report next : SourceReport}
    {between after : World σ}
    (holds : Failing inspector bridge chain binaries cache world before report between)
    (more : List (String × String)) (failed : next.failed = report.failed)
    (plain : after.files.PlainBelow cache.root)
    (rereads : ∀ path ∈ report.failed, (cacheRelative path).names ≠ [] →
      between.files.Reached cache.root →
        Rereads between.files after.files cache.root (cacheRelative path).names) :
    Failing inspector bridge chain binaries cache world (before ++ more) next after where
  plain := plain
  done path isFailed := by
    rw [failed] at isFailed
    simp [holds.done path isFailed]
  left path isFailed further := by
    rw [failed] at isFailed
    obtain ⟨first, last, fails, kept⟩ := holds.left path isFailed further
    exact ⟨first, last, fails, kept.trans (rereads path isFailed further kept.reached)⟩

theorem Failing.same {before : List (String × String)} {report next : SourceReport}
    {between after : World σ}
    (holds : Failing inspector bridge chain binaries cache world before report between)
    (more : List (String × String)) (failed : next.failed = report.failed)
    (same : after.files = between.files) :
    Failing inspector bridge chain binaries cache world (before ++ more) next after :=
  holds.mono more failed (same ▸ holds.plain) fun _ _ _ reached => ⟨same ▸ reached, by simp [same]⟩

theorem Failing.failed {before : List (String × String)} {report : SourceReport}
    {after : World σ}
    (holds : Failing inspector bridge chain binaries cache world before report after)
    (path : String) (member : path ∈ before.map Prod.fst)
    (fails : (cacheRelative path).names ≠ [] → ∃ first last,
      Fails inspector bridge chain binaries cache world path first last ∧
        Rereads last.files after.files cache.root (cacheRelative path).names) :
    Failing inspector bridge chain binaries cache world before (tally report path false) after where
  plain := holds.plain
  done other isFailed := by
    rcases List.mem_append.1 isFailed with earlier | now
    · exact holds.done other earlier
    · rwa [List.mem_singleton.1 now]
  left other isFailed := by
    rcases List.mem_append.1 isFailed with earlier | now
    · exact holds.left other earlier
    · rwa [List.mem_singleton.1 now]

variable (keeps : inspector.KeepsFiles) (confined : bridge.Confined)

include keeps confined

theorem ends_collectBinary_failing
    (distinct : binaries.entries.Pairwise fun a b => cache.pathOf a.1 ≠ cache.pathOf b.1)
    (before rest : List (String × String)) (report : SourceReport) (path expected : String)
    (between : World σ) (split : binaries.entries = before ++ (path, expected) :: rest)
    (ran : Reports inspector bridge chain cache world before report between)
    (holds : Failing inspector bridge chain binaries cache world before report between) :
    (collectBinary inspector bridge chain cache report (path, expected)).Ends between
      (Failing inspector bridge chain binaries cache world (before ++ [(path, expected)]))
      fun _ => True := by
  refine ends_collectBinary_of chain report path expected between _ _
    (fun _ => holds.same _ rfl rfl)
    (fun asked _ ran => holds.same _ rfl (files_of_isTrusted keeps _ expected between ran))
    (fun asked fs pullable ran' made cleared => ?_) fun _ _ _ _ _ _ _ => trivial
  have same := files_of_isTrusted keeps _ expected between ran'
  have plain : asked.files.PlainBelow cache.root := same ▸ holds.plain
  have plainMade := (asked.files.withParents_sprouts (cache.pathOf path)).steady.plainBelow plain
  have plainReady := (spares_of_cleared _ fs cache.root _ plainMade cleared).plain
  rcases running : pullFile bridge path (cache.pathOf path) chain { asked with files := fs } with
    ⟨answer, after⟩
  have touches := (after_pullFile confined path _ chain { asked with files := fs }).of_run running
  rw [Effect.After, running]
  have plainAfter : after.files.PlainBelow cache.root := touches.steady.plainBelow plainReady
  -- Whatever comes of this path, those that failed before have other places.
  have kept : ∀ next : SourceReport, next.failed = report.failed →
      Failing inspector bridge chain binaries cache world (before ++ [(path, expected)]) next
        after := by
    intro next failed
    refine holds.mono _ failed plainAfter fun other isFailed further reached => ?_
    have apart : (cacheRelative path).names ≠ (cacheRelative other).names := by
      obtain ⟨entry, member, rfl⟩ := List.mem_map.1 (holds.done other isFailed)
      intro collide
      exact Cache.pathOf_ne_of_split distinct split entry member
        (cache.pathOf_congr collide.symm)
    rw [← same] at reached ⊢
    exact rereads_of_replaced plain reached further apart cleared touches
  cases answer with
  | true => exact kept _ rfl
  | false =>
    refine (kept report rfl).failed path (by simp) fun further => ?_
    have reached := reached_of_replaced plain _ further made cleared touches
    exact ⟨{ asked with files := fs }, after, ⟨⟨before, expected, rest, report, between, asked,
      split, ran, pullable, ran', cleared, rfl⟩, absent_of_cleared _ cleared,
      running⟩, reached, fun _ => Iff.rfl⟩

omit keeps in
theorem ends_pullKernelSymbols_rereads (between : World σ)
    (plain : between.files.PlainBelow cache.root) :
    (pullKernelSymbols bridge cache).Ends between
      (fun _ after => ∀ names, names ≠ [] → [kernelSymbolsName] ≠ names →
        between.files.Reached cache.root → Rereads between.files after.files cache.root names)
      fun _ => True := by
  refine ends_pullKernelSymbols_of between _ _ fun fs cleared => ?_
  have plainReady := (spares_of_cleared _ fs cache.root [kernelSymbolsName] plain cleared).plain
  have ready : ∀ names, names ≠ [] → [kernelSymbolsName] ≠ names →
      between.files.Reached cache.root → Rereads between.files fs cache.root names :=
    fun names further apart reached => rereads_of_cleared plain reached further apart cleared
  refine (confined.switchToRoot _).mono fun rooted first same => ?_
  obtain rfl : fs = first.files := same.symm
  refine ⟨fun _ => ready, fun _ _ => ?_, fun _ _ => trivial⟩
  refine (confined.shell _ _).mono fun _ second same => ?_
  refine (confined.pull _ _ second).mono fun _ third touches names further apart reached => ?_
  rw [same] at touches
  have early := ready names further apart reached
  have made := rereads_of_makeDirAll plainReady early.reached further
  have plainMade := (first.files.makeDirAll_sprouts cache.root).steady.plainBelow plainReady
  exact (early.trans made).trans
    (rereads_of_touchesOnly plainMade made.reached further apart touches)

/-- A path that is reported as failed has in the cache what its last attempt left there, which began
without a file: so it has none if failed pulls make none. -/
theorem collect_leaves_failed_pulls (chain : List Strategy) (binaries : RequiredBinaries)
    (cache : Cache) (world after : World σ) (report : SourceReport)
    (distinct : binaries.entries.Pairwise fun a b => cache.pathOf a.1 ≠ cache.pathOf b.1)
    (plain : world.files.PlainBelow cache.root)
    (ran : collect inspector bridge chain binaries cache world = (.ok report, after)) :
    ∀ path ∈ report.failed, (cacheRelative path).names ≠ [] →
      cache.pathOf path ≠ cache.kernelSymbolsPath →
      ∃ first last, Fails inspector bridge chain binaries cache world path first last ∧
        (∀ content, after.files.read (cache.pathOf path) = .ok content ↔
          last.files.read (cache.pathOf path) = .ok content) ∧
        (bridge.Tidy → after.files.isFile (cache.pathOf path) = false) := by
  have ends : (collect inspector bridge chain binaries cache).Ends world
      (fun report after => ∀ path ∈ report.failed, (cacheRelative path).names ≠ [] →
        cache.pathOf path ≠ cache.kernelSymbolsPath →
        ∃ first last, Fails inspector bridge chain binaries cache world path first last ∧
          Rereads last.files after.files cache.root (cacheRelative path).names) fun _ => True := by
    refine ends_collect_of chain world
      (Failing inspector bridge chain binaries cache world) _ _
      ((confined.available world).mono fun _ first same =>
        ⟨same ▸ plain, by simp [SourceReport.start], by simp [SourceReport.start]⟩)
      (by simp [SourceReport.start])
      (fun before path expected rest report between split ran holds =>
        ends_collectBinary_failing keeps confined distinct before rest report path expected between
          split ran holds)
      fun report between _ holds => ?_
    refine (ends_pullKernelSymbols_rereads confined between holds.plain).mono
      (fun _ after rereads path isFailed further apart => ?_) fun _ left => left
    obtain ⟨first, last, fails, kept⟩ := holds.left path isFailed further
    refine ⟨first, last, fails, kept.trans
      (rereads _ further (fun collide => apart ?_) kept.reached)⟩
    rw [Cache.pathOf_eq_extend, ← collide, Cache.kernelSymbolsPath_eq_extend]
  intro path isFailed further apart
  obtain ⟨first, last, fails, kept⟩ := ends.of_ok ran path isFailed further apart
  refine ⟨first, last, fails, kept.read, fun tidy => ?_⟩
  have absent : last.files.isFile (cache.pathOf path) = false :=
    (after_pullFile_absent confined tidy chain path _ first fails.absent).of_run fails.fails rfl
  by_contra present
  obtain ⟨content, readable⟩ :=
    (after.files.isFile_iff (cache.pathOf path)).1 (by simpa using present)
  have there := (last.files.isFile_iff (cache.pathOf path)).2
    ⟨content, (kept.read content).1 readable⟩
  simp [absent] at there

end

theorem collect_leaves_failed_pulls_sample :
    ∃ first last, Fails sampleInspector (Simulated.bridge .whole) defaultChain (Sample.binaries "1")
      Sample.cache ⟨FileSystem.empty, sampleDevice ["/a", "/data/local/tmp/a"]⟩ "/a" first last ∧
      (sampleCollect ["/a", "/data/local/tmp/a"]).2.files.isFile (Sample.cache.pathOf "/a") =
        false := by
  have plain : FileSystem.empty.PlainBelow Sample.cache.root :=
    plainBelow_of_noLinks _ _ empty_noLinks
  obtain ⟨first, last, fails, -, absent⟩ := collect_leaves_failed_pulls
    (fun path world =>
      (Inspector.ofContent_quiet _ _ _ path world).mono fun _ _ same => by rw [same])
    (Simulated.bridge_confined .whole) defaultChain (Sample.binaries "1") Sample.cache
    ⟨FileSystem.empty, sampleDevice ["/a", "/data/local/tmp/a"]⟩
    (sampleCollect ["/a", "/data/local/tmp/a"]).2 ⟨"device", [], [], ["/a"], false⟩
    (by simp [Sample.binaries]) plain (Prod.ext sampleCollect_unreadable.1 rfl) "/a" (by simp)
    (by cbv; simp) (by cbv; simp)
  exact ⟨first, last, fails, absent (Simulated.bridge_tidy .whole)⟩

def sampleAdb : Tools Unit where
  spawn _ arguments world :=
    match arguments with
    | [_, _, target] =>
      match world.files.write ⟨target⟩ Sample.unknown with
      | .ok fs => (.ok ⟨1, ByteArray.empty⟩, { world with files := fs })
      | .error _ => (.ok ⟨1, ByteArray.empty⟩, world)
    | _ => (.ok ⟨0, ByteArray.empty⟩, world)

def sampleAdbCollect (world : World Unit) : Except CacheError SourceReport × World Unit :=
  collect (.ofContent "sample" Sample.reading.buildId Sample.reading.sections)
    (Adb.bridge sampleAdb ⟨some (.ofString "adb"), false⟩) [.direct] (Sample.binaries "")
    Sample.cache world

theorem failed_pull_trusted :
    (sampleAdbCollect ⟨FileSystem.empty, ()⟩).1 = .ok ⟨"device", [], [], ["/a"], false⟩ ∧
      (sampleAdbCollect ⟨FileSystem.empty, ()⟩).2.files.isFile (Sample.cache.pathOf "/a") = true ∧
      (sampleAdbCollect (sampleAdbCollect ⟨FileSystem.empty, ()⟩).2).1 =
        .ok ⟨"device", [], ["/a"], [], false⟩ := by
  simp only [sampleAdbCollect, collect, Sample.binaries, List.foldlM_cons, List.foldlM_nil,
    collectBinary, sample_pullable]
  cbv

end DeviceSource

end BuildIdCache
