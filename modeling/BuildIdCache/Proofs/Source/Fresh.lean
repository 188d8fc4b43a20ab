import BuildIdCache.Proofs.FileSystem.Renew
import BuildIdCache.Proofs.Source.Staged

set_option autoImplicit false

namespace BuildIdCache

open FileSystem

variable {σ : Type}

def Bridge.Writes (bridge : Bridge σ) (source : String) (target : Path) (first : World σ)
    (content : ByteArray) : Prop :=
  first.files.read target ≠ .ok content ∧
    (bridge.pull source target first).2.files.read target = .ok content

namespace DeviceSource

variable {inspector : Inspector σ} {bridge : Bridge σ} {reading : Reading} {chain : List Strategy}
  {binaries : RequiredBinaries} {cache : Cache}

inductive PullsFrom (bridge : Bridge σ) (path : String) (world : World σ) :
    Strategy → String → World σ → Prop
  | direct : PullsFrom bridge path world .direct path world
  | staged (dir : String) (copied : World σ)
      (made : bridge.shell ["cp", path, dir] world = (true, copied)) :
      PullsFrom bridge path world (.scratchCopy dir) (stagedPath dir path) copied

def WrittenBy (bridge : Bridge σ) (path : String) (target : Path) (content : ByteArray)
    (tried : Strategy × World σ) : Prop :=
  ∃ source first, PullsFrom bridge path tried.2 tried.1 source first ∧
    bridge.Writes source target first content

theorem after_attempt_written (confined : bridge.Confined) (path : String) (target : Path)
    (content : ByteArray) (strategy : Strategy) (world : World σ) :
    (attempt bridge path target strategy).After world fun _ after =>
      after.files.read target = .ok content → world.files.read target = .ok content ∨
        WrittenBy bridge path target content (strategy, world) := by
  have pulling : ∀ source first, PullsFrom bridge path world strategy source first →
      first.files = world.files → (bridge.pull source target).After first fun _ after =>
        after.files.read target = .ok content → world.files.read target = .ok content ∨
          WrittenBy bridge path target content (strategy, world) := by
    intro source first from_ same now
    by_cases early : first.files.read target = .ok content
    · exact .inl (same ▸ early)
    · exact .inr ⟨source, first, from_, early, now⟩
  refine after_attempt_of path target strategy world (fun direct => ?_) fun dir staged => ?_
  · subst direct
    exact pulling path world .direct rfl
  · subst staged
    have quiet := confined.shell ["cp", path, dir] world
    rcases ran : bridge.shell ["cp", path, dir] world with ⟨copied, first⟩
    have same := quiet.of_run ran
    rw [Effect.After, ran]
    refine ⟨fun _ now => .inl (same ▸ now), ?_⟩
    rintro rfl
    refine (pulling _ first (.staged dir first ran) same).mono fun _ second caused => ?_
    refine ⟨fun _ => caused, fun _ => ?_⟩
    exact (confined.shell _ second).mono fun _ third same now => caused (same ▸ now)

theorem after_pullFile_written (confined : bridge.Confined) (path : String) (target : Path)
    (content : ByteArray) (chain : List Strategy) (world : World σ) :
    (pullFile bridge path target chain).After world fun _ after =>
      after.files.read target = .ok content → world.files.read target = .ok content ∨
        ∃ tried ∈ attempts bridge path target chain world,
          WrittenBy bridge path target content tried :=
  after_pullFile_of_attempts (fun after => after.files.read target = .ok content)
    (WrittenBy bridge path target content) path target chain world
    fun strategy first => after_attempt_written confined path target content strategy first

def Written (inspector : Inspector σ) (bridge : Bridge σ) (chain : List Strategy)
    (binaries : RequiredBinaries) (cache : Cache) (world : World σ) (path : String)
    (content : ByteArray) : Prop :=
  ∃ begun, Pulls inspector bridge chain binaries cache world path begun ∧
    ∃ tried ∈ attempts bridge path (cache.pathOf path) chain begun,
      WrittenBy bridge path (cache.pathOf path) content tried

/-- What the cache has for a path that the device was asked for: the trusted file that was there
before, or nothing but what was pulled. -/
structure Settled (inspector : Inspector σ) (bridge : Bridge σ) (reading : Reading)
    (chain : List Strategy) (binaries : RequiredBinaries) (cache : Cache) (world : World σ)
    (report : SourceReport) (path expected : String) (fs : FileSystem) : Prop where
  reused : path ∈ report.reused → ∃ content, fs.read (cache.pathOf path) = .ok content ∧
    world.files.Had (cache.pathOf path) content ∧
    (∀ top, world.files.Enters cache.root top →
      world.files.read (cache.pathOf path) = .ok content) ∧
    (expected = "" ∨ reading.buildId content = expected)
  written : path ∉ report.reused → ∀ content, fs.read (cache.pathOf path) = .ok content →
    Written inspector bridge chain binaries cache world path content

theorem Settled.congr {world : World σ} {report next : SourceReport} {path expected : String}
    {fs after : FileSystem}
    (settled : Settled inspector bridge reading chain binaries cache world report path expected fs)
    (same : path ∈ next.reused ↔ path ∈ report.reused)
    (reads : ∀ content, after.read (cache.pathOf path) = .ok content ↔
      fs.read (cache.pathOf path) = .ok content) :
    Settled inspector bridge reading chain binaries cache world next path expected after where
  reused isReused := by simpa only [reads] using settled.reused (same.1 isReused)
  written notReused content now :=
    settled.written (fun isReused => notReused (same.2 isReused)) content ((reads content).1 now)

structure Settling (inspector : Inspector σ) (bridge : Bridge σ) (reading : Reading)
    (chain : List Strategy) (binaries : RequiredBinaries) (cache : Cache) (world : World σ)
    (before : List (String × String)) (report : SourceReport) (between : World σ) : Prop where
  plain : between.files.PlainBelow cache.root
  enters : ∀ top, world.files.Enters cache.root top → between.files.Enters cache.root top
  had : ∀ names content, (∀ entry ∈ before, (cacheRelative entry.1).names ≠ names) →
    between.files.Had (cache.root.extend names) content →
      world.files.Had (cache.root.extend names) content
  reused : ∀ path ∈ report.reused, path ∈ before.map Prod.fst
  reached : ∀ entry ∈ before, isPullable entry.1 = true → (cacheRelative entry.1).names ≠ [] →
    between.files.Reached cache.root
  settled : ∀ entry ∈ before, isPullable entry.1 = true →
    Settled inspector bridge reading chain binaries cache world report entry.1 entry.2 between.files

section

variable {world between after : World σ} {before : List (String × String)} {report : SourceReport}
  (holds : Settling inspector bridge reading chain binaries cache world before report between)

include holds

theorem Settling.next (path expected : String)
    (others : ∀ entry ∈ before, cache.pathOf entry.1 ≠ cache.pathOf path)
    (renews : Renews between.files after.files cache.root (cacheRelative path).names)
    (next : SourceReport)
    (reused : next.reused = report.reused ∨ next.reused = report.reused ++ [path])
    (here : isPullable path = true →
      ((cacheRelative path).names ≠ [] → after.files.Reached cache.root) ∧
        Settled inspector bridge reading chain binaries cache world next path expected
          after.files) :
    Settling inspector bridge reading chain binaries cache world (before ++ [(path, expected)]) next
      after where
  plain := renews.plain
  enters top entered := renews.enters top (holds.enters top entered)
  had names content apart now := by
    refine holds.had names content (fun entry member => apart entry (by simp [member])) ?_
    exact renews.had names content (fun same => apart (path, expected) (by simp) same.symm) now
  reused other isReused := by
    have earlier := holds.reused other
    rcases reused with same | more <;> grind -linarith
  reached entry member pullable further := by
    rcases List.mem_append.1 member with earlier | now
    · exact renews.reached (holds.reached entry earlier pullable further)
    · obtain rfl := List.mem_singleton.1 now
      exact (here pullable).1 further
  settled entry member pullable := by
    rcases List.mem_append.1 member with earlier | now
    · have apart := others entry earlier
      have other : entry.1 ≠ path := fun same => apart (by rw [same])
      refine (holds.settled entry earlier pullable).congr ?_ fun content => ?_
      · rcases reused with same | more <;> simp [*]
      · exact renews.read _ content (fun same => apart (cache.pathOf_congr same))
          (holds.reached entry earlier pullable)
    · obtain rfl := List.mem_singleton.1 now
      exact (here pullable).2

variable (reads : inspector.Reads reading) (confined : bridge.Confined)

include reads confined

theorem ends_collectBinary_settling (plainStart : world.files.PlainBelow cache.root)
    (distinct : binaries.entries.Pairwise fun a b => cache.pathOf a.1 ≠ cache.pathOf b.1)
    (rest : List (String × String)) (path expected : String)
    (split : binaries.entries = before ++ (path, expected) :: rest)
    (ran : Reports inspector bridge chain cache world before report between) :
    (collectBinary inspector bridge chain cache report (path, expected)).Ends between
      (Settling inspector bridge reading chain binaries cache world (before ++ [(path, expected)]))
      fun _ => True := by
  have others := Cache.pathOf_ne_of_split distinct split
  have notYet : path ∉ report.reused := by
    intro isReused
    obtain ⟨entry, member, same⟩ := List.mem_map.1 (holds.reused path isReused)
    exact others entry member (by rw [same])
  -- Not pulled, trusted, or pulled once what was there is cleared away.
  refine ends_collectBinary_of chain report path expected between _ _ (fun local_ => ?_)
    (fun asked pullable asking => ?_) (fun asked fs pullable asking made cleared => ?_)
    fun _ _ _ _ _ _ _ => trivial
  · exact holds.next path expected others (renews_refl holds.plain) report (.inl rfl)
      fun pullable => by simp [local_] at pullable
  · obtain ⟨same, trusts⟩ := (after_isTrusted reads _ expected between).of_run asking
    obtain ⟨content, readable, matched⟩ := trusts.1 rfl
    have had := holds.had (cacheRelative path).names content
      (fun entry member collide => others entry member (cache.pathOf_congr collide))
      (between.files.place_of_read _ content readable)
    refine holds.next path expected others (by rw [same]; exact renews_refl holds.plain) _
      (.inr rfl) fun _ =>
        ⟨fun further => ?_, fun _ => ?_, fun notReused => absurd (by simp) notReused⟩
    · obtain ⟨top, entered, -⟩ :=
        between.files.entered_of_read cache.root _ content holds.plain further readable
      exact same ▸ fun _ => ⟨top, entered⟩
    · exact ⟨content, same ▸ readable, had,
        fun top entered => had.read entered plainStart holds.plain readable, matched⟩
  · have same := ((after_isTrusted reads _ expected between).of_run asking).1
    rcases running : pullFile bridge path (cache.pathOf path) chain { asked with files := fs } with
      ⟨answer, after⟩
    have touches := (after_pullFile confined path _ chain { asked with files := fs }).of_run running
    have plain : asked.files.PlainBelow cache.root := same ▸ holds.plain
    have renews := renews_of_replaced plain made cleared touches
    have begins :
        Pulls inspector bridge chain binaries cache world path { asked with files := fs } :=
      ⟨before, expected, rest, report, between, asked, split, ran, pullable, asking, cleared, rfl⟩
    rw [Effect.After, running]
    refine holds.next path expected others (same ▸ renews) _ (by cases answer <;> simp [tally])
      fun _ => ⟨fun further => reached_of_replaced plain _ further made cleared touches,
        fun isReused => ?_, fun _ content now => ?_⟩
    · have unchanged : (tally report path answer).reused = report.reused := by
        cases answer <;> rfl
      exact absurd (unchanged ▸ isReused) notYet
    · rcases (after_pullFile_written confined path _ content chain _).of_run running now with
        early | written
      · have absent := absent_of_cleared _ cleared
        have present := (fs.isFile_iff (cache.pathOf path)).2 ⟨content, early⟩
        simp [absent] at present
      · exact ⟨_, begins, written⟩

end

def PullsKernelSymbols (inspector : Inspector σ) (bridge : Bridge σ) (chain : List Strategy)
    (binaries : RequiredBinaries) (cache : Cache) (world first : World σ) : Prop :=
  ∃ report between fs rooted,
    Reports inspector bridge chain cache world binaries.entries report between ∧
    between.files.Cleared fs cache.kernelSymbolsPath ∧
    bridge.switchToRoot { between with files := fs } = (true, rooted) ∧
    first = (bridge.shell ["echo", "0", ">/proc/sys/kernel/kptr_restrict"]
      { rooted with files := (rooted.files.makeDirAll cache.root).1 }).2

theorem ends_pullKernelSymbols_fresh (confined : bridge.Confined) (world between : World σ)
    (report : SourceReport)
    (ran : Reports inspector bridge chain cache world binaries.entries report between)
    (plain : between.files.PlainBelow cache.root) :
    (pullKernelSymbols bridge cache).Ends between
      (fun pulled after => Renews between.files after.files cache.root [kernelSymbolsName] ∧
        (pulled = true → ∃ first,
          PullsKernelSymbols inspector bridge chain binaries cache world first ∧
          bridge.pull deviceKernelSymbols cache.kernelSymbolsPath first = (true, after)) ∧
        ∀ content, after.files.read cache.kernelSymbolsPath = .ok content →
          (∃ first, PullsKernelSymbols inspector bridge chain binaries cache world first ∧
            bridge.Writes deviceKernelSymbols cache.kernelSymbolsPath first content) ∨
          between.files.Had cache.kernelSymbolsPath content ∧
            ∀ top, ¬between.files.Enters cache.root top)
      fun _ => True := by
  refine ends_pullKernelSymbols_of between _ _ fun fs cleared => ?_
  have renewed : Renews between.files fs cache.root [kernelSymbolsName] :=
    renews_of_cleared plain cleared
  have quiet := confined.switchToRoot { between with files := fs }
  rcases rooting : bridge.switchToRoot { between with files := fs } with ⟨rooted, first⟩
  have same := quiet.of_run rooting
  obtain rfl : fs = first.files := same.symm
  rw [Effect.After, rooting]
  refine ⟨fun unrooted => ?_, fun isRooted made => ?_, fun _ _ => trivial⟩
  · refine ⟨renewed, (fun never => by cases never), fun content now => ?_⟩
    have absent := absent_of_cleared _ cleared
    have present := (first.files.isFile_iff cache.kernelSymbolsPath).2 ⟨content, now⟩
    simp [absent] at present
  · have renews := renewed.trans (renews_of_makeDirAll renewed.plain made)
    have quiet := confined.shell ["echo", "0", ">/proc/sys/kernel/kptr_restrict"]
      { first with files := (first.files.makeDirAll cache.root).1 }
    rcases echoing : bridge.shell ["echo", "0", ">/proc/sys/kernel/kptr_restrict"]
      { first with files := (first.files.makeDirAll cache.root).1 } with ⟨echoed, second⟩
    have made : second.files = (first.files.makeDirAll cache.root).1 := quiet.of_run echoing
    rw [Effect.After, echoing]
    have touches := confined.pull deviceKernelSymbols cache.kernelSymbolsPath second
    rcases pulling : bridge.pull deviceKernelSymbols cache.kernelSymbolsPath second with
      ⟨pulled, third⟩
    replace touches := touches.of_run pulling
    rw [← made] at renews
    have begins : PullsKernelSymbols inspector bridge chain binaries cache world second :=
      ⟨report, between, first.files, first, ran, cleared,
        rooting.trans (congrArg (·, first) isRooted), by rw [echoing]⟩
    rw [Effect.After, pulling]
    refine ⟨renews.trans (renews_of_touchesOnly renews.plain touches), ?_, fun content now => ?_⟩
    · rintro rfl
      exact ⟨second, begins, pulling⟩
    -- What can be read before the pull came into sight only when the root was made.
    by_cases early : second.files.read cache.kernelSymbolsPath = .ok content
    · have sprouts := first.files.makeDirAll_sprouts cache.root
      have cleared : between.files.Cleared first.files (cache.root.extend [kernelSymbolsName]) :=
        cleared
      exact .inr (had_of_cleared plain cleared (made ▸ sprouts) early)
    · exact .inl ⟨second, begins, early, by rw [pulling]; exact now⟩

/-- What is in the cache after a run. A path that is reused has the file that it had, with the
expected build-id; any other path has no file but one that was pulled. The kernel symbols were
pulled as well, unless the root could not be entered when the file of an earlier run was looked
for. -/
structure Fresh (inspector : Inspector σ) (bridge : Bridge σ) (reading : Reading)
    (chain : List Strategy) (binaries : RequiredBinaries) (cache : Cache) (world : World σ)
    (report : SourceReport) (after : World σ) : Prop where
  paths : ∀ path expected, binaries.get? path = some expected → isPullable path = true →
    Settled inspector bridge reading chain binaries cache world report path expected after.files
  kernelSymbols : ∀ content, after.files.read cache.kernelSymbolsPath = .ok content →
    (∃ first, PullsKernelSymbols inspector bridge chain binaries cache world first ∧
      bridge.Writes deviceKernelSymbols cache.kernelSymbolsPath first content) ∨
    world.files.Had cache.kernelSymbolsPath content ∧ ∀ top, ¬world.files.Enters cache.root top
  reported : report.kernelSymbols = true → ∃ first,
    PullsKernelSymbols inspector bridge chain binaries cache world first ∧
      bridge.pull deviceKernelSymbols cache.kernelSymbolsPath first = (true, after)

theorem collect_leaves_nothing_stale (reads : inspector.Reads reading) (confined : bridge.Confined)
    (chain : List Strategy) (binaries : RequiredBinaries) (cache : Cache) (world after : World σ)
    (report : SourceReport)
    (distinct : binaries.entries.Pairwise fun a b => cache.pathOf a.1 ≠ cache.pathOf b.1)
    (elsewhere : ∀ path, binaries.contains path = true →
      cache.pathOf path ≠ cache.kernelSymbolsPath)
    (plain : world.files.PlainBelow cache.root)
    (available : (bridge.available world).1 = true)
    (ran : collect inspector bridge chain binaries cache world = (.ok report, after)) :
    Fresh inspector bridge reading chain binaries cache world report after := by
  have apart : ∀ entry ∈ binaries.entries, (cacheRelative entry.1).names ≠ [kernelSymbolsName] := by
    intro entry member same
    exact elsewhere entry.1 ((binaries.contains_iff entry.1).2 ⟨entry.2, member⟩)
      (by rw [Cache.pathOf_eq_extend, same]; rfl)
  have ends : (collect inspector bridge chain binaries cache).Ends world
      (Fresh inspector bridge reading chain binaries cache world) fun _ => True := by
    refine ends_collect_of chain world
      (Settling inspector bridge reading chain binaries cache world) _ _
      ((confined.available world).mono fun _ first same => ?_) (fun first unavailable => ?_)
      (fun before path expected rest report between split ran holds =>
        ends_collectBinary_settling holds reads confined plain distinct rest path expected split
          ran)
      fun report between ran holds => ?_
    · exact ⟨same ▸ plain, fun top entered => same ▸ entered, fun _ _ _ had => same ▸ had,
        by simp [SourceReport.start], by simp, by simp⟩
    · simp [unavailable] at available
    refine (ends_pullKernelSymbols_fresh confined world between report ran holds.plain).mono
      (fun pulled after outcome => ?_) fun _ left => left
    obtain ⟨renews, worked, kernel⟩ := outcome
    refine ⟨fun path expected required pullable => ?_, fun content now => ?_, worked⟩
    · have member := (binaries.get?_eq_some_iff path expected).1 required
      refine (holds.settled _ member pullable).congr Iff.rfl fun content => ?_
      exact renews.read _ content (apart _ member) (holds.reached _ member pullable)
    · refine (kernel content now).imp_right ?_
      rintro ⟨had, never⟩
      exact ⟨holds.had [kernelSymbolsName] content apart had,
        fun top entered => never top (holds.enters top entered)⟩
  exact ends.of_ok ran

def sampleReplaced : Except CacheError SourceReport × World Simulated.Device :=
  collect sampleInspector (Simulated.bridge .whole) defaultChain (Sample.binaries "1") Sample.cache
    ⟨Sample.files Sample.unknown Sample.unknown, sampleDevice []⟩

theorem collect_leaves_nothing_stale_sample :
    sampleReplaced.2.files.read (Sample.cache.pathOf "/a") = .ok Sample.stripped ∧
      Written sampleInspector (Simulated.bridge .whole) defaultChain (Sample.binaries "1")
        Sample.cache ⟨Sample.files Sample.unknown Sample.unknown, sampleDevice []⟩ "/a"
        Sample.stripped := by
  have ran : sampleReplaced.1 = .ok ⟨"device", ["/a"], [], [], false⟩ ∧
      sampleReplaced.2.files.read (Sample.cache.pathOf "/a") = .ok Sample.stripped := by
    simp only [sampleReplaced, collect, Sample.binaries, List.foldlM_cons, List.foldlM_nil,
      collectBinary, sample_pullable]
    cbv
  have fresh := collect_leaves_nothing_stale (Inspector.ofContent_reads "sample" Sample.reading)
    (Simulated.bridge_confined .whole) defaultChain (Sample.binaries "1") Sample.cache
    ⟨Sample.files Sample.unknown Sample.unknown, sampleDevice []⟩ sampleReplaced.2
    ⟨"device", ["/a"], [], [], false⟩ (by simp [Sample.binaries])
    (fun path required => by rw [Sample.only_path required]; cbv; simp)
    (Sample.plain Sample.unknown Sample.unknown) rfl (Prod.ext ran.1 rfl)
  exact ⟨ran.2, (fresh.paths "/a" "1" (by cbv) sample_pullable).written (by simp) _ ran.2⟩

def detouredCache : Cache := ⟨.ofString "a/../c"⟩

def staleSymbols : FileSystem :=
  (FileSystem.empty.put [] Sample.cacheName .dir).put [Sample.cacheName] kernelSymbolsName
    (.file Sample.unknown)

-- The symbols of an earlier run come into sight only when the root is made, and stay.
theorem stale_symbols_stay :
    (collect sampleInspector (Simulated.bridge .whole) defaultChain .empty detouredCache
        ⟨staleSymbols, { sampleDevice [] with rooted := true }⟩).1 =
        .ok ⟨"device", [], [], [], false⟩ ∧
      (collect sampleInspector (Simulated.bridge .whole) defaultChain .empty detouredCache
        ⟨staleSymbols, { sampleDevice [] with rooted := true }⟩).2.files.read
          detouredCache.kernelSymbolsPath = .ok Sample.unknown ∧
      ∀ world : World Simulated.Device, world.rest = { sampleDevice [] with rooted := true } →
        (Simulated.bridge .whole).pull deviceKernelSymbols detouredCache.kernelSymbolsPath world =
          (false, world) := by
  refine ⟨by cbv, by cbv, ?_⟩
  rintro ⟨files, device⟩ rfl
  cbv

end DeviceSource

end BuildIdCache
