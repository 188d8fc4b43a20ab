import BuildIdCache.Device.Simulated
import BuildIdCache.Proofs.Cache
import BuildIdCache.Source.Device

set_option autoImplicit false

namespace BuildIdCache

open FileSystem

variable {σ : Type}

/-- A device that touches no file of the host but the one that it is told to pull to. -/
structure Bridge.Confined (bridge : Bridge σ) : Prop where
  available : ∀ world, bridge.available.After world fun _ after => after.files = world.files
  switchToRoot : ∀ world, bridge.switchToRoot.After world fun _ after => after.files = world.files
  shell : ∀ arguments world,
    (bridge.shell arguments).After world fun _ after => after.files = world.files
  pull : ∀ source target world,
    (bridge.pull source target).After world fun _ after =>
      world.files.TouchesOnly after.files target

theorem Bridge.Confined.recorded {bridge : Bridge σ} (confined : bridge.Confined)
    (calls : Part σ (List Bridge.Call)) : (bridge.recorded calls).Confined where
  available _ := confined.available _
  switchToRoot _ := confined.switchToRoot _
  shell arguments _ := confined.shell arguments _
  pull source target _ := confined.pull source target _

theorem Simulated.bridge_confined (part : Part σ Simulated.Device) :
    (Simulated.bridge part).Confined where
  available _ := rfl
  switchToRoot _ := rfl
  shell _ _ := rfl
  pull source target world := by
    simp only [Simulated.bridge, Effect.after_bind, Effect.after_read]
    split
    · exact .inl rfl
    · simp only [Effect.after_bind, Effect.after_files]
      split
      next fs written =>
        obtain ⟨place, filled, same⟩ := world.files.write_sameBut fs target _ written
        exact .inr ⟨place, _, filled, by simp, same⟩
      next => exact .inl rfl

namespace DeviceSource

variable {inspector : Inspector σ} {bridge : Bridge σ} {reading : Reading} {cache : Cache}
  {binaries : RequiredBinaries} {kept : String → Prop}

theorem after_attempt_of {post : Bool → World σ → Prop} (path : String) (target : Path)
    (strategy : Strategy) (world : World σ)
    (direct : strategy = .direct → (bridge.pull path target).After world post)
    (scratch : ∀ dir, strategy = .scratchCopy dir →
      (bridge.shell ["cp", path, dir]).After world fun copied first =>
        (copied = false → post false first) ∧
        (copied = true → (bridge.pull (stagedPath dir path) target).After first fun pulled second =>
          (pulled = false → post false second) ∧
          (pulled = true → (bridge.shell ["rm", stagedPath dir path]).After second fun _ third =>
            post true third))) :
    (attempt bridge path target strategy).After world post := by
  cases strategy with
  | direct => exact direct rfl
  | scratchCopy dir =>
    simp only [attempt, Effect.after_bind]
    refine (scratch dir rfl).mono fun copied first copying => ?_
    obtain ⟨failed, worked⟩ := copying
    cases copied with
    | false => exact failed rfl
    | true =>
      simp only [Bool.not_true, Bool.false_eq_true, if_false, Effect.after_bind]
      refine (worked rfl).mono fun pulled second pulling => ?_
      obtain ⟨failed, worked⟩ := pulling
      cases pulled with
      | false => exact failed rfl
      | true => exact worked rfl

theorem after_attempt (confined : bridge.Confined) (path : String) (target : Path)
    (strategy : Strategy) (world : World σ) :
    (attempt bridge path target strategy).After world fun _ after =>
      world.files.TouchesOnly after.files target := by
  apply after_attempt_of path target strategy world fun _ => confined.pull path target world
  intro dir _
  refine (confined.shell _ world).mono fun _ first same => ⟨fun _ => .inl same, fun _ => ?_⟩
  refine (confined.pull _ target first).mono fun _ second touches => ?_
  rw [same] at touches
  refine ⟨fun _ => touches, fun _ => ?_⟩
  refine (confined.shell _ second).mono fun _ third same => ?_
  rwa [same]

theorem after_pullFile_of {post : Bool → World σ → Prop} (path : String) (target : Path)
    (chain : List Strategy) (world : World σ) (begins : post false world)
    (tries : ∀ strategy ∈ chain, ∀ first, post false first →
      (attempt bridge path target strategy).After first post) :
    (pullFile bridge path target chain).After world post := by
  induction chain generalizing world with
  | nil => exact begins
  | cons strategy rest ih =>
    rw [pullFile, Effect.after_bind]
    refine (tries strategy (by simp) world begins).mono fun pulled first holds => ?_
    cases pulled with
    | true => exact holds
    | false => exact ih first holds fun other member => tries other (by simp [member])

theorem after_pullFile (confined : bridge.Confined) (path : String) (target : Path)
    (chain : List Strategy) (world : World σ) :
    (pullFile bridge path target chain).After world fun _ after =>
      world.files.TouchesOnly after.files target := by
  apply after_pullFile_of path target chain world (.inl rfl)
  intro strategy _ first touches
  exact (after_attempt confined path target strategy first).mono fun _ _ more => touches.trans more

theorem after_isTrusted_of {kept : World σ → Prop} (target : Path) (expected : String)
    (world : World σ) (holds : kept world)
    (asked : (inspector.buildId target).After world fun _ after => kept after) :
    (isTrusted inspector target expected).After world fun _ after => kept after := by
  simp only [isTrusted, Effect.after_bind, Effect.after_isFile]
  split
  · exact holds
  · split
    · exact holds
    · exact asked

theorem files_of_isTrusted (keeps : inspector.KeepsFiles) (target : Path) (expected : String)
    (world : World σ) {trusted : Bool} {asked : World σ}
    (ran : isTrusted inspector target expected world = (trusted, asked)) :
    asked.files = world.files := by
  have same : (isTrusted inspector target expected).After world
      fun _ after => after.files = world.files :=
    after_isTrusted_of target expected world rfl (keeps target world)
  exact same.of_run ran

theorem after_isTrusted (reads : inspector.Reads reading) (target : Path) (expected : String)
    (world : World σ) :
    (isTrusted inspector target expected).After world fun trusted after =>
      after.files = world.files ∧ (trusted = true ↔ ∃ content,
        world.files.read target = .ok content ∧
          (expected = "" ∨ reading.buildId content = expected)) := by
  simp only [isTrusted, Effect.after_bind, Effect.after_isFile]
  by_cases file : world.files.isFile target = true
  · obtain ⟨content, readable⟩ := (world.files.isFile_iff target).1 file
    simp only [file, Bool.not_true, Bool.false_eq_true, if_false]
    split
    next unknown =>
      have empty : expected = "" := by simpa using unknown
      exact ⟨rfl, fun _ => ⟨content, readable, .inl empty⟩, fun _ => rfl⟩
    next known =>
      have nonempty : expected ≠ "" := by simpa using known
      rw [Effect.after_bind]
      refine (reads.buildId target world).mono fun id after asked => ?_
      rw [Effect.after_pure, asked.1, reading.buildIdAt_of_read _ _ content readable]
      simp [asked.2, readable, nonempty, eq_comm]
  · simp only [file, Bool.not_false, if_true, Effect.after_pure]
    refine ⟨trivial, (fun never => by cases never), ?_⟩
    rintro ⟨content, readable, -⟩
    exact absurd ((world.files.isFile_iff target).2 ⟨content, readable⟩) file

def tally (report : SourceReport) (path : String) (pulled : Bool) : SourceReport :=
  if pulled then { report with collected := report.collected ++ [path] }
  else { report with failed := report.failed ++ [path] }

theorem ends_collectBinary_of (chain : List Strategy) (report : SourceReport)
    (path expected : String) (world : World σ) (done : SourceReport → World σ → Prop)
    (failed : World σ → Prop) (skipped : isPullable path = false → done report world)
    (trusted : ∀ asked, isPullable path = true →
      isTrusted inspector (cache.pathOf path) expected world = (true, asked) →
      done { report with reused := report.reused ++ [path] } asked)
    (pulled : ∀ asked fs, isPullable path = true →
      isTrusted inspector (cache.pathOf path) expected world = (false, asked) →
      (∀ dir, (cache.pathOf path).parent? = some dir → (asked.files.makeDirAll dir).2 = .ok ()) →
      (asked.files.withParents (cache.pathOf path)).Cleared fs (cache.pathOf path) →
      (pullFile bridge path (cache.pathOf path) chain).After { asked with files := fs }
        fun answer after => done (tally report path answer) after)
    (stops : ∀ asked dir e, isPullable path = true →
      isTrusted inspector (cache.pathOf path) expected world = (false, asked) →
      (cache.pathOf path).parent? = some dir → (asked.files.makeDirAll dir).2 = .error e →
      failed { asked with files := asked.files.withParents (cache.pathOf path) }) :
    (collectBinary inspector bridge chain cache report (path, expected)).Ends world done
      failed := by
  simp only [collectBinary]
  split
  next local_ => exact skipped (by simpa using local_)
  next pullable =>
    rw [Action.ends_bind, Action.ends_lift]
    have asking : (isTrusted inspector (cache.pathOf path) expected).After world fun answer asked =>
        isTrusted inspector (cache.pathOf path) expected world = (answer, asked) := rfl
    refine asking.mono fun answer asked ran => ?_
    split
    next yes => exact trusted asked (by simpa using pullable) (by rw [ran, yes])
    next no =>
      have untrusted : isTrusted inspector (cache.pathOf path) expected world = (false, asked) := by
        simpa [no] using ran
      refine Action.ends_withParents (cache.pathOf path) _ asked (fun made => ?_)
        fun dir e => stops asked dir e (by simpa using pullable) untrusted
      refine Action.ends_removeStale (cache.pathOf path) _ _ fun fs cleared => ?_
      rw [Action.ends_bind, Action.ends_lift]
      refine (pulled asked fs (by simpa using pullable) untrusted made cleared).mono
        fun answer after holds => ?_
      cases answer <;> exact holds

theorem collectBinary_of_trusted (chain : List Strategy) (report : SourceReport)
    (path expected : String) {world asked : World σ} (pullable : isPullable path = true)
    (trusted : isTrusted inspector (cache.pathOf path) expected world = (true, asked)) :
    collectBinary inspector bridge chain cache report (path, expected) world =
      (.ok { report with reused := report.reused ++ [path] }, asked) := by
  have ends : (collectBinary inspector bridge chain cache report (path, expected)).Ends world
      (fun next after => next = { report with reused := report.reused ++ [path] } ∧ after = asked)
      fun _ => False := by
    refine ends_collectBinary_of chain report path expected world _ _ ?_ ?_ ?_ ?_ <;> grind
  obtain ⟨_, _, ran, rfl, rfl⟩ := ends.of_never
  exact ran

def Reports (inspector : Inspector σ) (bridge : Bridge σ) (chain : List Strategy) (cache : Cache)
    (world : World σ) (before : List (String × String)) (report : SourceReport)
    (between : World σ) : Prop :=
  before.foldlM (collectBinary inspector bridge chain cache) (.start sourceName)
    (bridge.available world).2 = (.ok report, between)

/-- In a run, a path begins to be pulled: it is not trusted in the cache, its directory was made and
what was in its way was removed. -/
def Pulls (inspector : Inspector σ) (bridge : Bridge σ) (chain : List Strategy)
    (binaries : RequiredBinaries) (cache : Cache) (world : World σ) (path : String)
    (first : World σ) : Prop :=
  ∃ before expected rest report between asked,
    binaries.entries = before ++ (path, expected) :: rest ∧
    Reports inspector bridge chain cache world before report between ∧ isPullable path = true ∧
    isTrusted inspector (cache.pathOf path) expected between = (false, asked) ∧
    (asked.files.withParents (cache.pathOf path)).Cleared first.files (cache.pathOf path) ∧
    first.rest = asked.rest

theorem collect_of_unavailable (chain : List Strategy) {world first : World σ}
    (unavailable : bridge.available world = (false, first)) :
    collect inspector bridge chain binaries cache world = (.ok (.start sourceName), first) := by
  have asked : (liftM bridge.available : Action σ Bool) world = (.ok false, first) := by
    change (Except.ok (bridge.available world).1, (bridge.available world).2) = _
    rw [unavailable]
  simp only [collect]
  rw [Action.bind_of_ok _ _ _ _ _ asked]
  rfl

theorem ends_collect_of (chain : List Strategy) (world : World σ)
    (inv : List (String × String) → SourceReport → World σ → Prop)
    (done : SourceReport → World σ → Prop) (failed : World σ → Prop)
    (begins : bridge.available.After world fun _ first => inv [] (.start sourceName) first)
    (none : ∀ first, bridge.available world = (false, first) →
      inv [] (.start sourceName) first → done (.start sourceName) first)
    (each : ∀ before path expected rest report between,
      binaries.entries = before ++ (path, expected) :: rest →
      Reports inspector bridge chain cache world before report between → inv before report between →
        (collectBinary inspector bridge chain cache report (path, expected)).Ends between
          (inv (before ++ [(path, expected)])) failed)
    (last : ∀ report between,
      Reports inspector bridge chain cache world binaries.entries report between →
      inv binaries.entries report between → (pullKernelSymbols bridge cache).Ends between
        (fun kernel after => done { report with kernelSymbols := kernel } after) failed) :
    (collect inspector bridge chain binaries cache).Ends world done failed := by
  have begun : bridge.available.After world fun available first =>
      inv [] (.start sourceName) first ∧ bridge.available world = (available, first) :=
        ⟨begins, rfl⟩
  simp only [collect, Action.ends_bind, Action.ends_lift]
  refine begun.mono fun available first now => ?_
  obtain ⟨holds, asked⟩ := now
  split
  next unavailable =>
    obtain rfl : available = false := by simpa using unavailable
    exact none first asked holds
  · rw [Action.ends_bind]
    refine (Action.ends_foldlM _ (fun before report between =>
      inv before report between ∧
        Reports inspector bridge chain cache world before report between) binaries.entries _ first
      ⟨holds, by rw [Reports, asked]; rfl⟩ ?_).mono (fun report after holds => ?_) fun _ left =>
        left
    · rintro before ⟨path, expected⟩ rest report between split ⟨holds, ran⟩
      refine ((each before path expected rest report between split ran holds).and
        (Action.ends_self _ between)).mono ?_ fun _ left => left.1
      rintro next after ⟨holds, ran'⟩
      refine ⟨holds, ?_⟩
      rw [Reports, List.foldlM_append, Action.bind_of_ok _ _ _ _ _ ran, List.foldlM_cons,
        Action.bind_of_ok _ _ _ _ _ ran']
      rfl
    · rw [Action.ends_bind]
      exact last report after holds.2 holds.1

theorem ends_pullKernelSymbols_of (world : World σ) (done : Bool → World σ → Prop)
    (failed : World σ → Prop)
    (roots : ∀ fs, world.files.Cleared fs cache.kernelSymbolsPath →
      bridge.switchToRoot.After { world with files := fs } fun rooted first =>
        (rooted = false → done false first) ∧
        (rooted = true → (first.files.makeDirAll cache.root).2 = .ok () →
          (bridge.shell ["echo", "0", ">/proc/sys/kernel/kptr_restrict"]).After
            { first with files := (first.files.makeDirAll cache.root).1 } fun _ second =>
              (bridge.pull deviceKernelSymbols cache.kernelSymbolsPath).After second done) ∧
        ∀ e, (first.files.makeDirAll cache.root).2 = .error e →
          failed { first with files := (first.files.makeDirAll cache.root).1 }) :
    (pullKernelSymbols bridge cache).Ends world done failed := by
  refine Action.ends_removeStale cache.kernelSymbolsPath _ world fun fs cleared => ?_
  rw [Action.ends_bind, Action.ends_lift]
  refine (roots fs cleared).mono fun rooted first rooting => ?_
  obtain ⟨unrooted, pulled, unmade⟩ := rooting
  cases rooted with
  | false => exact unrooted rfl
  | true =>
    simp only [Bool.not_true, Bool.false_eq_true, if_false, Action.ends_bind]
    refine Action.ends_makeDirAll _ first _ (fun made => ?_) unmade
    simp only [Action.ends_lift]
    exact pulled rfl made

section

variable (confined : bridge.Confined) (distinct : cache.Distinct binaries)
  {good : String → ByteArray → Prop} (trusted : Cache.Trusted reading binaries kept good)

include confined distinct trusted

theorem ends_collectBinary (reads : inspector.Reads reading) (chain : List Strategy)
    (report : SourceReport) (path expected : String) (required : binaries.get? path = some expected)
    (world : World σ) (stocks : cache.Stocks kept good world.files) :
    (collectBinary inspector bridge chain cache report (path, expected)).Ends world
      (fun next after => next.source = report.source ∧ cache.Stocks kept good after.files)
      fun after => cache.Stocks kept good after.files := by
  have stocksAsked : ∀ answer asked,
      isTrusted inspector (cache.pathOf path) expected world = (answer, asked) →
        cache.Stocks kept good asked.files := by
    intro answer asked ran
    have same := ((after_isTrusted reads (cache.pathOf path) expected world).of_run ran).1
    exact same ▸ stocks
  refine ends_collectBinary_of chain report path expected world _ _ (fun _ => ⟨rfl, stocks⟩)
    (fun asked _ ran => ⟨rfl, stocksAsked true asked ran⟩) (fun asked fs _ ran _ cleared => ?_)
    fun asked _ _ _ ran _ _ =>
      (stocksAsked false asked ran).sprouts (asked.files.withParents_sprouts _)
  -- A kept path is trusted, so it is not the one that is pulled.
  have others : ∀ other, kept other → (cacheRelative other).names ≠ (cacheRelative path).names := by
    intro other isKept
    obtain ⟨content, there, isGood⟩ := stocks.has other isKept
    obtain ⟨wanted, required', isTrusted⟩ := trusted other content isKept isGood
    refine distinct.names required' required ?_
    rintro rfl
    obtain rfl : expected = wanted := Option.some.inj (required.symm.trans required')
    have asked := (after_isTrusted reads (cache.pathOf other) expected world).of_run ran
    exact Bool.noConfusion (asked.2.2 ⟨content, there, isTrusted⟩)
  have made := (stocksAsked false asked ran).sprouts
    (asked.files.withParents_sprouts (cache.pathOf path))
  have ready := made.removed _ others cleared
  refine (after_pullFile confined path _ chain { asked with files := fs }).mono
    fun answer after touches => ⟨?_, ready.touches _ others touches⟩
  cases answer <;> rfl

theorem ends_pullKernelSymbols (world : World σ) (stocks : cache.Stocks kept good world.files) :
    (pullKernelSymbols bridge cache).Ends world
      (fun _ after => cache.Stocks kept good after.files)
      fun after => cache.Stocks kept good after.files := by
  have others : ∀ path, kept path → (cacheRelative path).names ≠ [kernelSymbolsName] := by
    intro path isKept
    obtain ⟨content, -, isGood⟩ := stocks.has path isKept
    obtain ⟨expected, required, -⟩ := trusted path content isKept isGood
    exact distinct.names_ne_kernelSymbols (SortedMap.contains_of_get? required)
  refine ends_pullKernelSymbols_of world _ _ fun fs cleared => ?_
  have ready := stocks.removed _ others cleared
  refine (confined.switchToRoot _).mono fun rooted first same => ?_
  rw [← show first.files = fs from same] at ready
  have made := ready.sprouts (first.files.makeDirAll_sprouts cache.root)
  refine ⟨fun _ => ready, fun _ _ => ?_, fun _ _ => made⟩
  refine (confined.shell _ _).mono fun _ second same => ?_
  refine (confined.pull _ _ second).mono fun _ third touches => ?_
  rw [same] at touches
  exact made.touches _ others touches

theorem ends_collect (reads : inspector.Reads reading) (chain : List Strategy) (world : World σ)
    (stocks : cache.Stocks kept good world.files) :
    (collect inspector bridge chain binaries cache).Ends world
      (fun report after => report.source = sourceName ∧ cache.Stocks kept good after.files)
      fun after => cache.Stocks kept good after.files := by
  refine ends_collect_of chain world
    (fun _ report after => report.source = sourceName ∧ cache.Stocks kept good after.files)
    _ _ ((confined.available world).mono fun _ first same => ⟨rfl, same ▸ stocks⟩)
    (fun _ _ holds => holds) (fun before path expected rest report between split _ holds => ?_)
    fun report between _ holds => ?_
  · exact (ends_collectBinary confined distinct trusted reads chain report path expected
      (SortedMap.get?_of_split split) between holds.2).mono
      (fun _ _ next => ⟨next.1.trans holds.1, next.2⟩) fun _ left => left
  · exact (ends_pullKernelSymbols confined distinct trusted between holds.2).mono
      (fun _ _ stocks => ⟨holds.1, stocks⟩) fun _ left => left

end

def sampleDevice (unreadable : List String) : Simulated.Device where
  connected := true
  rooted := false
  files := ⟨[("/a", Sample.stripped)], by simp⟩
  unreadable := unreadable
  kernelSymbols := none
  scratch := .empty

-- Known apart from the runs, in which evaluation would compare the texts again and again.
theorem sample_pullable : isPullable "/a" = true := by decide +kernel

def sampleInspector : Inspector Simulated.Device :=
  .ofContent "sample" Sample.reading.buildId Sample.reading.sections

def sampleCollect (unreadable : List String) :
    Except CacheError SourceReport × World Simulated.Device :=
  collect sampleInspector (Simulated.bridge .whole) defaultChain (Sample.binaries "1") Sample.cache
    ⟨FileSystem.empty, sampleDevice unreadable⟩

theorem sampleCollect_unreadable :
    (sampleCollect ["/a", "/data/local/tmp/a"]).1 = .ok ⟨sourceName, [], [], ["/a"], false⟩ ∧
      (sampleCollect ["/a", "/data/local/tmp/a"]).2.rest.scratch.contains "/data/local/tmp/a" =
        true := by
  simp only [sampleCollect, collect, Sample.binaries, List.foldlM_cons, List.foldlM_nil,
    collectBinary, sample_pullable]
  cbv

end DeviceSource

end BuildIdCache
