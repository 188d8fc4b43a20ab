import BuildIdCache.Proofs.Closed
import BuildIdCache.Proofs.Mapped

set_option autoImplicit false

namespace BuildIdCache

namespace Cache

variable (cache : Cache)

def Inside (target : Path) : Prop :=
  ∃ more, more ≠ [] ∧ target.components = cache.root.components ++ more

theorem inside_pathOf (recorded : String) :
    cache.Inside (cache.pathOf recorded) ↔ normalParts recorded ≠ [] := by
  rw [Ne, ← names_cacheRelative_nil, Inside, components_pathOf]
  simp only [List.append_cancel_left_eq, exists_eq_right', Ne, List.map_eq_nil_iff]

theorem inside_kernelSymbolsPath : cache.Inside cache.kernelSymbolsPath := by
  refine ⟨[.name kernelSymbolsName], by simp, ?_⟩
  rw [kernelSymbolsPath_eq_extend, Path.components_extend]
  rfl

theorem pathOf_eq_root {recorded : String} (noParts : normalParts recorded = []) :
    cache.pathOf recorded = cache.root := by
  rw [pathOf_eq_extend, (names_cacheRelative_nil recorded).2 noParts, Path.extend_nil]

end Cache

namespace DeviceSource

theorem startsWith_iff (path start : String) :
    startsWith path start = true ↔ ∃ rest, path.toList = start.toList ++ rest := by
  rw [startsWith, List.isPrefixOf_iff_prefix, List.IsPrefix]
  simp only [eq_comm]

theorem isPullable_of_noParts {path : String} (absolute : startsWith path "/" = true)
    (noParts : normalParts path = []) : isPullable path = true := by
  have notAnonymous : path ≠ anonymousDso := by
    rintro rfl
    revert noParts
    decide
  have notNode : startsWith path deviceNodes = false := by
    by_contra node
    obtain ⟨rest, spelled⟩ := (startsWith_iff _ _).1 (Bool.eq_true_of_not_eq_false node)
    have part : "dev".toList ∈ normalParts path := by
      refine List.mem_filter.2 ⟨?_, by decide⟩
      rw [spelled]
      simp [deviceNodes, List.splitOn_cons_eq_if_modifyHead]
    simp [noParts] at part
  simp [isPullable, absolute, notAnonymous, notNode]

variable {σ : Type} {inspector : Inspector σ} {bridge : Bridge σ} {log : σ → List Bridge.Call}

theorem Closed.calls (logs : bridge.Logs log)
    (quiet : ∀ path, (inspector.buildId path).Leaves fun world => log world.rest)
    (chain : List Strategy) (cache : Cache) (binaries : RequiredBinaries) (start : World σ) :
    Closed inspector bridge chain cache binaries
      fun world => Adds log (CanMake chain binaries cache) start world where
  buildId path world made := (quiet path world).mono fun _ _ same => made.trans (.none same)
  available world made :=
    (logs.available world).mono fun _ _ added => made.trans (.one _ (.inl .available) added)
  switchToRoot world made :=
    (logs.switchToRoot world).mono fun _ _ added => made.trans (.one _ (.inl .root) added)
  shell arguments can world made :=
    (logs.shell arguments world).mono fun _ _ added => made.trans (.one _ can added)
  pull source target can world made :=
    (logs.pull source target world).mono fun _ _ added => made.trans (.one _ can added)
  made _ made := made
  parents _ _ _ made := made
  cleared _ _ _ _ made _ := made

theorem CanMake.inside {chain : List Strategy} {binaries : RequiredBinaries} {cache : Cache}
    {source : String} {target : Path} (can : CanMake chain binaries cache (.pull source target)) :
    cache.Inside target ∨
      target = cache.root ∧ ∃ path, Asked binaries path ∧ normalParts path = [] := by
  rcases can.receives with rfl | ⟨path, asked, rfl⟩
  · exact .inl cache.inside_kernelSymbolsPath
  · by_cases noParts : normalParts path = []
    · exact .inr ⟨cache.pathOf_eq_root noParts, path, asked, noParts⟩
    · exact .inl ((cache.inside_pathOf path).2 noParts)

/-- A path that may be pulled has its place inside the cache, unless it is absolute and has no parts
but empty ones, "." and ".."; each of these may be pulled, and its place is the root. So in every
run, a pull that is not directed inside the cache is directed at the root, and such a path is
required. -/
theorem collect_pulls_inside (logs : bridge.Logs log)
    (quiet : ∀ path, (inspector.buildId path).Leaves fun world => log world.rest)
    (chain : List Strategy) (cache : Cache) (binaries : RequiredBinaries) (world : World σ) :
    (∀ path, isPullable path = true ∧ ¬cache.Inside (cache.pathOf path) ↔
      startsWith path "/" = true ∧ normalParts path = []) ∧
    (∀ path, normalParts path = [] → cache.pathOf path = cache.root) ∧
    ∃ made, log (collect inspector bridge chain binaries cache world).2.rest =
        log world.rest ++ made ∧
      ∀ source target, .pull source target ∈ made → cache.Inside target ∨
        target = cache.root ∧ ∃ path, Asked binaries path ∧ normalParts path = [] := by
  refine ⟨fun path => ?_, fun path noParts => cache.pathOf_eq_root noParts, ?_⟩
  · rw [cache.inside_pathOf, not_not]
    constructor
    · rintro ⟨pullable, noParts⟩
      simp only [isPullable, Bool.and_eq_true] at pullable
      exact ⟨pullable.1.1, noParts⟩
    · rintro ⟨absolute, noParts⟩
      exact ⟨isPullable_of_noParts absolute noParts, noParts⟩
  · obtain ⟨made, added, can⟩ :=
      ((Closed.calls logs quiet chain cache binaries world).ends_collect world (.none rfl)).both
    exact ⟨made, added, fun source target member => (can _ member).inside⟩

def obliging : Bridge (List Bridge.Call) :=
  Bridge.recorded ⟨pure true, pure false, fun _ => pure true, fun _ _ => pure true⟩ .whole

def blind : Inspector (List Bridge.Call) := .ofContent "sample" (fun _ => "") fun _ => []

def mixedNames : RequiredBinaries := ⟨[("/", ""), ("/a", "")], by decide⟩

def mixedCollect : Except CacheError SourceReport × World (List Bridge.Call) :=
  collect blind obliging defaultChain mixedNames Sample.cache ⟨FileSystem.empty, []⟩

def mixedCalls : List Bridge.Call :=
  [.available, .pull "/" Sample.cache.root, .pull "/a" (.ofString "c/a"), .root]

theorem mixedCollect_calls : mixedCollect.2.rest = mixedCalls := by
  have root : isPullable "/" = true := by decide +kernel
  simp only [mixedCollect, collect, mixedNames, List.foldlM_cons, List.foldlM_nil, collectBinary,
    root, sample_pullable]
  cbv

theorem collect_pulls_inside_sample :
    mixedCollect.2.rest = mixedCalls ∧
      ∀ source target, Bridge.Call.pull source target ∈ mixedCalls → Sample.cache.Inside target ∨
        target = Sample.cache.root ∧ ∃ path, Asked mixedNames path ∧ normalParts path = [] := by
  have logs : obliging.Logs id :=
    Bridge.recorded_logs _ .whole (fun _ _ => rfl)
      ⟨fun _ => rfl, fun _ => rfl, fun _ _ => rfl, fun _ _ _ => rfl⟩
  have quiet : ∀ path, (blind.buildId path).Leaves fun world => id world.rest :=
    fun path world => (Inspector.ofContent_quiet _ _ _ path world).mono fun _ _ same => by rw [same]
  obtain ⟨-, -, made, added, inside⟩ := collect_pulls_inside logs quiet defaultChain Sample.cache
    mixedNames ⟨FileSystem.empty, []⟩
  obtain rfl : mixedCalls = made := mixedCollect_calls.symm.trans added
  exact ⟨mixedCollect_calls, inside⟩

theorem root_pulled_onto_cache :
    isPullable "/" = true ∧ ¬Sample.cache.Inside (Sample.cache.pathOf "/") ∧
      Bridge.Call.pull "/" Sample.cache.root ∈ mixedCollect.2.rest := by
  refine ⟨by cbv, fun inside => ?_, ?_⟩
  · exact (Sample.cache.inside_pathOf "/").1 inside (by decide)
  · rw [mixedCollect_calls]
    exact .tail _ (.head _)

end DeviceSource

end BuildIdCache
