import BuildIdCache.Proofs.FileSystem.Makeable
import BuildIdCache.Proofs.FileSystem.Reread
import BuildIdCache.Proofs.Required
import BuildIdCache.Proofs.Source.Device
import Mathlib.Data.List.Perm.Basic

set_option autoImplicit false

namespace BuildIdCache.DeviceSource

open FileSystem

variable {σ : Type} {inspector : Inspector σ} {bridge : Bridge σ} {chain : List Strategy}
  {binaries : RequiredBinaries} {cache : Cache}

def pullable (entries : List (String × String)) : List String :=
  (entries.map Prod.fst).filter isPullable

structure Tallied (before : List (String × String)) (report : SourceReport) : Prop where
  collected : report.collected.Sublist (pullable before)
  reused : report.reused.Sublist (pullable before)
  failed : report.failed.Sublist (pullable before)
  all : (report.collected ++ report.reused ++ report.failed).Perm (pullable before)

section

variable {before : List (String × String)} {report : SourceReport} (tallied : Tallied before report)
  (path expected : String)

include tallied

theorem Tallied.skip (local_ : isPullable path = false) :
    Tallied (before ++ [(path, expected)]) report := by
  have same : pullable (before ++ [(path, expected)]) = pullable before := by
    simp [pullable, local_]
  exact ⟨same ▸ tallied.collected, same ▸ tallied.reused, same ▸ tallied.failed, same ▸ tallied.all⟩

variable (isPath : isPullable path = true)

include isPath

theorem Tallied.add (next : SourceReport)
    (added : (next.collected = report.collected ++ [path] ∧ next.reused = report.reused ∧
        next.failed = report.failed) ∨
      (next.collected = report.collected ∧ next.reused = report.reused ++ [path] ∧
        next.failed = report.failed) ∨
      next.collected = report.collected ∧ next.reused = report.reused ∧
        next.failed = report.failed ++ [path]) :
    Tallied (before ++ [(path, expected)]) next := by
  have more : pullable (before ++ [(path, expected)]) = pullable before ++ [path] := by
    simp [pullable, isPath]
  have longer : ∀ {paths : List String}, paths.Sublist (pullable before) →
      paths.Sublist (pullable (before ++ [(path, expected)])) ∧
        (paths ++ [path]).Sublist (pullable (before ++ [(path, expected)])) := by
    intro paths h
    rw [more]
    exact ⟨h.trans (List.sublist_append_left _ _), h.append (List.Sublist.refl _)⟩
  have counts := List.perm_iff_count.1 tallied.all
  have all : (next.collected ++ next.reused ++ next.failed).Perm
      (pullable (before ++ [(path, expected)])) := by
    refine List.perm_iff_count.2 fun other => ?_
    have count := counts other
    rw [more]
    rcases added with ⟨a, b, c⟩ | ⟨a, b, c⟩ | ⟨a, b, c⟩ <;>
      simp only [a, b, c, List.count_append] at count ⊢ <;> omega
  rcases added with ⟨a, b, c⟩ | ⟨a, b, c⟩ | ⟨a, b, c⟩
  · exact ⟨a ▸ (longer tallied.collected).2, b ▸ (longer tallied.reused).1,
      c ▸ (longer tallied.failed).1, all⟩
  · exact ⟨a ▸ (longer tallied.collected).1, b ▸ (longer tallied.reused).2,
      c ▸ (longer tallied.failed).1, all⟩
  · exact ⟨a ▸ (longer tallied.collected).1, b ▸ (longer tallied.reused).1,
      c ▸ (longer tallied.failed).2, all⟩

theorem Tallied.tally (answer : Bool) :
    Tallied (before ++ [(path, expected)]) (tally report path answer) := by
  cases answer with
  | true => exact tallied.add path expected isPath _ (.inl ⟨rfl, rfl, rfl⟩)
  | false => exact tallied.add path expected isPath _ (.inr (.inr ⟨rfl, rfl, rfl⟩))

end

theorem ends_collectBinary_tallied (before : List (String × String)) (report : SourceReport)
    (path expected : String) (world : World σ) (tallied : Tallied before report) :
    (collectBinary inspector bridge chain cache report (path, expected)).Ends world
      (fun next _ => Tallied (before ++ [(path, expected)]) next) fun _ => True := by
  refine ends_collectBinary_of chain report path expected world _ _
    (fun local_ => tallied.skip path expected local_)
    (fun asked isPath _ => tallied.add path expected isPath _ (.inr (.inl ⟨rfl, rfl, rfl⟩)))
    (fun asked fs isPath _ _ _ => ?_) fun _ _ _ _ _ _ _ => trivial
  exact (tallied.tally path expected isPath _ : Tallied _ _)

/-- Each required path that is pullable is in exactly one list of a report, once, and the lists are
in the order of the bytes. -/
structure Accounted (binaries : RequiredBinaries) (report : SourceReport) : Prop where
  increasing : ∀ paths ∈ [report.collected, report.reused, report.failed],
    paths.Pairwise fun a b => a.toUTF8.toList < b.toUTF8.toList
  disjoint : [report.collected, report.reused, report.failed].Pairwise List.Disjoint
  all : ∀ path, path ∈ report.collected ∨ path ∈ report.reused ∨ path ∈ report.failed ↔
    binaries.contains path = true ∧ isPullable path = true

theorem pullable_increasing (binaries : RequiredBinaries) :
    (pullable binaries.entries).Pairwise fun a b => a.toUTF8.toList < b.toUTF8.toList := by
  apply List.Pairwise.filter
  exact List.pairwise_map.2 binaries.increasing_bytes

theorem mem_pullable (binaries : RequiredBinaries) (path : String) :
    path ∈ pullable binaries.entries ↔ binaries.contains path = true ∧ isPullable path = true := by
  rw [pullable, List.mem_filter, List.mem_map, SortedMap.contains_iff]
  simp

theorem Tallied.accounted {report : SourceReport} (tallied : Tallied binaries.entries report) :
    Accounted binaries report := by
  have increasing := pullable_increasing binaries
  have once : (report.collected ++ report.reused ++ report.failed).Nodup := by
    refine tallied.all.nodup_iff.2 (increasing.imp fun {a b} below same => ?_)
    exact absurd (same ▸ below) (List.lt_irrefl _)
  rw [List.nodup_append, List.nodup_append] at once
  obtain ⟨⟨-, -, apart⟩, -, apart'⟩ := once
  refine ⟨?_, ?_, fun path => ?_⟩
  · simp only [List.mem_cons, List.not_mem_nil, or_false, forall_eq_or_imp, forall_eq]
    exact ⟨increasing.sublist tallied.collected, increasing.sublist tallied.reused,
      increasing.sublist tallied.failed⟩
  · simp only [List.pairwise_cons, List.mem_cons, List.not_mem_nil, or_false, forall_eq_or_imp,
      forall_eq, IsEmpty.forall_iff, implies_true, List.Pairwise.nil, and_true]
    exact ⟨⟨fun path a b => apart path a path b rfl,
      fun path a b => apart' path (List.mem_append_left _ a) path b rfl⟩,
      fun path a b => apart' path (List.mem_append_right _ a) path b rfl⟩
  · rw [← mem_pullable, ← tallied.all.mem_iff, List.mem_append, List.mem_append, or_assoc]

def Asked (binaries : RequiredBinaries) (path : String) : Prop :=
  binaries.contains path = true ∧ isPullable path = true

/-- Each path that a device is asked for has a place below the cache root, and none of the places is
above another. -/
structure Placed (cache : Cache) (binaries : RequiredBinaries) : Prop where
  named : ∀ path, Asked binaries path → (cacheRelative path).names ≠ []
  apart : ∀ path other, Asked binaries path → Asked binaries other →
    (cacheRelative path).names <+: (cacheRelative other).names →
      (cacheRelative path).names = (cacheRelative other).names

/-- All the directories that a run needs are there or can be made: the cache root, and the one above
each path that the device is asked for. -/
structure Ready (cache : Cache) (binaries : RequiredBinaries) (fs : FileSystem) : Prop where
  plain : fs.PlainBelow cache.root
  root : fs.Makeable cache.root
  parents : ∀ path, Asked binaries path → ∀ dir, (cache.pathOf path).parent? = some dir →
    fs.Makeable dir

section

variable {fs after : FileSystem} (ready : Ready cache binaries fs)

include ready

theorem Ready.sprouts (sprouts : Sprouts fs after) : Ready cache binaries after where
  plain := sprouts.steady.plainBelow ready.plain
  root := ready.root.sprouts sprouts
  parents path asked dir parent := (ready.parents path asked dir parent).sprouts sprouts

theorem Ready.touches (placed : Placed cache binaries) (path : String) (asked : Asked binaries path)
    (touches : fs.TouchesOnly after (cache.pathOf path)) : Ready cache binaries after where
  plain := touches.steady.plainBelow ready.plain
  root := ready.root.touches_root ready.plain (placed.named path asked) touches
  parents other asked' dir parent := by
    have further := placed.named other asked'
    obtain ⟨dir', parent', moves, same⟩ := cache.root.parent_extend _ further
    obtain rfl : dir = dir' := Option.some.inj (parent.symm.trans parent')
    refine (ready.parents other asked' dir parent).touches ready.plain moves same (fun within => ?_)
      (placed.named path asked) touches
    -- A place above the other one would be above its directory, so above itself.
    have same := placed.apart path other asked asked' (within.trans (List.dropLast_prefix _))
    have shorter := (same ▸ within).length_le
    rw [List.length_dropLast] at shorter
    have room := List.length_pos_iff.2 further
    omega

end

section

variable (keeps : inspector.KeepsFiles) (confined : bridge.Confined)
  (placed : Placed cache binaries)

include confined

include keeps placed in
theorem ends_collectBinary_ready (report : SourceReport) (path expected : String)
    (required : binaries.contains path = true) (world : World σ)
    (ready : Ready cache binaries world.files) :
    (collectBinary inspector bridge chain cache report (path, expected)).Ends world
      (fun _ after => Ready cache binaries after.files) fun _ => False := by
  have readyAsked : ∀ trusted asked,
      isTrusted inspector (cache.pathOf path) expected world = (trusted, asked) →
        Ready cache binaries asked.files := fun trusted asked ran =>
    files_of_isTrusted keeps (cache.pathOf path) expected world ran ▸ ready
  refine ends_collectBinary_of chain report path expected world _ _ (fun _ => ready)
    (fun asked _ ran => readyAsked true asked ran) (fun asked fs isPath ran _ cleared => ?_)
    fun asked dir e isPath ran parent unmade => ?_
  · have isAsked : Asked binaries path := ⟨required, isPath⟩
    have made := (readyAsked false asked ran).sprouts
      (asked.files.withParents_sprouts (cache.pathOf path))
    have gone := made.touches placed path isAsked
      (touchesOnly_of_cleared made.plain _ (placed.named path isAsked) cleared)
    exact (after_pullFile confined path _ chain { asked with files := fs }).mono
      fun _ _ touches => gone.touches placed path isAsked touches
  · have makeable := (readyAsked false asked ran).parents path ⟨required, isPath⟩ dir parent
    rw [asked.files.makeDirAll_of_makeable dir makeable] at unmade
    cases unmade

theorem ends_pullKernelSymbols_ready (world : World σ) (ready : Ready cache binaries world.files) :
    (pullKernelSymbols bridge cache).Ends world (fun _ _ => True) fun _ => False := by
  refine ends_pullKernelSymbols_of world _ _ fun fs cleared => ?_
  have root : fs.Makeable cache.root :=
    ready.root.touches_root ready.plain (List.cons_ne_nil kernelSymbolsName [])
      (touchesOnly_of_cleared ready.plain [kernelSymbolsName] (by simp) cleared)
  refine (confined.switchToRoot _).mono fun rooted first same => ?_
  refine ⟨fun _ => trivial, fun _ _ => trivial, fun e unmade => ?_⟩
  rw [same, fs.makeDirAll_of_makeable cache.root root] at unmade
  cases unmade

include keeps placed in
theorem ends_collect_ready (chain : List Strategy) (world : World σ)
    (ready : Ready cache binaries world.files) :
    (collect inspector bridge chain binaries cache).Ends world (fun _ _ => True) fun _ =>
      False := by
  refine ends_collect_of chain world (fun _ _ after => Ready cache binaries after.files) _ _
    ((confined.available world).mono fun _ first same => same ▸ ready) (fun _ _ _ => trivial)
    (fun before path expected rest report between split _ ready => ?_)
    fun report between _ ready => (ends_pullKernelSymbols_ready confined between ready).mono
      (fun _ _ _ => trivial) fun _ never => never
  have required := SortedMap.contains_of_get? (SortedMap.get?_of_split split)
  exact ends_collectBinary_ready keeps confined placed report path expected required between ready

end

/-- Whatever a device answers, a run accounts for all that it asks for; it fails only where a
directory cannot be made; and a device that is not there is not asked for anything. -/
theorem collect_accounts (confined : bridge.Confined) (chain : List Strategy)
    (binaries : RequiredBinaries) (cache : Cache) (world : World σ) :
    (∀ report after, (bridge.available world).1 = true →
      collect inspector bridge chain binaries cache world = (.ok report, after) →
        Accounted binaries report) ∧
    (inspector.KeepsFiles → Placed cache binaries → Ready cache binaries world.files →
      ∃ report after, collect inspector bridge chain binaries cache world = (.ok report, after)) ∧
    ∀ first, bridge.available world = (false, first) →
      collect inspector bridge chain binaries cache world = (.ok (.start sourceName), first) ∧
        first.files = world.files := by
  refine ⟨fun report after available ran => ?_, fun keeps placed ready => ?_,
    fun first unavailable => ⟨collect_of_unavailable chain unavailable,
      (confined.available world).of_run unavailable⟩⟩
  · have ends : (collect inspector bridge chain binaries cache).Ends world
        (fun report _ => Tallied binaries.entries report) fun _ => True := by
      refine ends_collect_of chain world (fun before report _ => Tallied before report) _ _
        ⟨.slnil, .slnil, .slnil, .nil⟩ (fun first unavailable => ?_)
        (fun before path expected rest report between _ _ tallied =>
          ends_collectBinary_tallied before report path expected between tallied)
        fun report between _ tallied => ?_
      · simp [unavailable] at available
      · refine ends_pullKernelSymbols_of between _ _ fun fs _ => ?_
        exact ⟨fun _ => ⟨tallied.1, tallied.2, tallied.3, tallied.4⟩,
          fun _ _ => ⟨tallied.1, tallied.2, tallied.3, tallied.4⟩, fun _ _ => trivial⟩
    exact (ends.of_ok ran).accounted
  · obtain ⟨report, after, ran, -⟩ := (ends_collect_ready keeps confined placed chain world
      ready).of_never
    exact ⟨report, after, ran⟩

theorem sample_ready : Placed Sample.cache (Sample.binaries "1") ∧
    Ready Sample.cache (Sample.binaries "1") FileSystem.empty := by
  have makeable : FileSystem.empty.Makeable Sample.cache.root := by
    have moves : Sample.cache.root.moves = [.into Sample.cacheName] := by cbv
    have bytes : Sample.cache.root.bytes = [0x63] := by cbv
    refine ⟨by simp [bytes], by simp [bytes, pathLimit], fun _ => by cbv, ?_, fun ends => ?_⟩
    · rw [moves]
      exact ⟨[Sample.cacheName], linkLimit, by cbv, .inl ⟨by cbv, by decide⟩, trivial⟩
    · have parts : Sample.cache.root.parts = [[0x63]] := by cbv
      simp [Path.EndsInDot, parts, dot] at ends
  refine ⟨⟨?_, ?_⟩, plainBelow_of_noLinks _ _ empty_noLinks, makeable, ?_⟩
  · rintro path ⟨required, -⟩
    rw [Sample.only_path required]
    cbv
    simp
  · rintro path other ⟨required, -⟩ ⟨required', -⟩ -
    rw [Sample.only_path required, Sample.only_path required']
  · rintro path ⟨required, -⟩ dir parent
    rw [Sample.only_path required] at parent
    have isRoot : (Sample.cache.pathOf "/a").parent? = some Sample.cache.root := by cbv
    exact Option.some.inj (isRoot.symm.trans parent) ▸ makeable

theorem collect_accounts_sample :
    (∃ report after, sampleCollect ["/a"] = (.ok report, after) ∧
      Accounted (Sample.binaries "1") report) ∧
    (collect sampleInspector (Simulated.bridge .whole) defaultChain (Sample.binaries "1")
      Sample.cache ⟨FileSystem.empty, default⟩).1 = .ok (.start sourceName) := by
  have quiet : sampleInspector.KeepsFiles := (Inspector.ofContent_reads _ Sample.reading).keepsFiles
  obtain ⟨placed, ready⟩ := sample_ready
  obtain ⟨accounts, answers, -⟩ := @collect_accounts _ sampleInspector _
    (Simulated.bridge_confined .whole) defaultChain (Sample.binaries "1") Sample.cache
    ⟨FileSystem.empty, sampleDevice ["/a"]⟩
  obtain ⟨report, after, ran⟩ := answers quiet placed ready
  obtain ⟨-, -, unavailable⟩ := @collect_accounts _ sampleInspector _
    (Simulated.bridge_confined .whole) defaultChain (Sample.binaries "1") Sample.cache
    ⟨FileSystem.empty, default⟩
  exact ⟨⟨report, after, ran, accounts report after rfl ran⟩,
    congrArg Prod.fst (unavailable _ rfl).1⟩

def longCache : Cache := ⟨⟨List.replicate 256 0x61⟩⟩

set_option maxRecDepth 20000 in
theorem long_name_stops :
    (∀ place, place ≠ [] → FileSystem.empty.at? place = none) ∧
      (collect sampleInspector (Simulated.bridge .whole) defaultChain .empty longCache
        ⟨FileSystem.empty, { sampleDevice [] with rooted := true }⟩).1 =
        .error (.io longCache.root .nameTooLong) :=
  ⟨at?_empty, by cbv⟩

end BuildIdCache.DeviceSource
