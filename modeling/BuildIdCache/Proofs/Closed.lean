import BuildIdCache.Proofs.Build
import BuildIdCache.Proofs.Source.Calls
import BuildIdCache.Proofs.Trace

set_option autoImplicit false

namespace BuildIdCache

open FileSystem

variable {σ : Type} {inspector : Inspector σ} {bridge : Bridge σ} {cache : Cache}
  {binaries : RequiredBinaries} {inv : World σ → Prop}

namespace SearchDirs

def Wanted (binaries : RequiredBinaries) (path : String) : Prop :=
  binaries.contains path = true ∧ (cacheRelative path).names ≠ []

/-- What holds of a world whatever a search does to it. -/
structure Closed (inspector : Inspector σ) (cache : Cache) (binaries : RequiredBinaries)
    (inv : World σ → Prop) : Prop where
  buildId : ∀ path world, inv world → (inspector.buildId path).After world fun _ => inv
  sections : ∀ path world, inv world → (inspector.sections path).After world fun _ => inv
  parents : ∀ path, Wanted binaries path → ∀ world, inv world →
    inv { world with files := world.files.withParents (cache.pathOf path) }
  copied : ∀ path, Wanted binaries path → ∀ source (world : World σ) fs, inv world →
    (world.files.withParents (cache.pathOf path)).copy source (cache.pathOf path) = .ok fs →
      inv { world with files := fs }

namespace Closed

theorem and {inv' : World σ → Prop} (a : Closed inspector cache binaries inv)
    (b : Closed inspector cache binaries inv') :
    Closed inspector cache binaries fun world => inv world ∧ inv' world where
  buildId path world holds := ⟨a.buildId path world holds.1, b.buildId path world holds.2⟩
  sections path world holds := ⟨a.sections path world holds.1, b.sections path world holds.2⟩
  parents path wanted world holds :=
    ⟨a.parents path wanted world holds.1, b.parents path wanted world holds.2⟩
  copied path wanted source world fs holds written :=
    ⟨a.copied path wanted source world fs holds.1 written,
      b.copied path wanted source world fs holds.2 written⟩

theorem grows (quiet : inspector.Leaves World.files) (start : FileSystem) :
    Closed inspector cache binaries fun world => Grows start world.files where
  buildId path world grows := (quiet.buildId path world).mono fun _ _ same => same ▸ grows
  sections path world grows := (quiet.sections path world).mono fun _ _ same => same ▸ grows
  parents _ _ world grows := grows.trans (world.files.withParents_sprouts _).grows
  copied _ _ _ _ _ grows written := grows.trans (grows_of_copied _ _ _ _ written)

theorem rest {τ : Type} {view : σ → τ} (leaves : inspector.Leaves fun world => view world.rest)
    (holds : τ → Prop) :
    Closed inspector cache binaries fun world => holds (view world.rest) where
  buildId path world kept := (leaves.buildId path world).mono fun _ _ same => same ▸ kept
  sections path world kept := (leaves.sections path world).mono fun _ _ same => same ▸ kept
  parents _ _ _ kept := kept
  copied _ _ _ _ _ kept _ := kept

section

variable (closed : Closed inspector cache binaries inv)

include closed

theorem after_needToCopy (source target : Path) (expected : String) (world : World σ)
    (holds : inv world) :
    (needToCopy inspector source target expected).After world fun _ => inv := by
  simp only [needToCopy, Inspector.level, Effect.after_bind, Effect.after_isFile]
  split
  · exact holds
  rw [Effect.after_bind]
  refine (closed.buildId target world holds).mono fun id first holds => ?_
  split
  · exact holds
  simp only [Effect.after_bind, Effect.after_pure]
  refine (closed.sections source first holds).mono fun offered second holds => ?_
  exact (closed.sections target second holds).mono fun _ _ holds => holds

theorem ends_copyToCache (path : String) (wanted : Wanted binaries path) (source : Path)
    (expected : String) (world : World σ) (holds : inv world) :
    (copyToCache inspector source (cache.pathOf path) expected).Ends world (fun _ => inv) inv := by
  simp only [copyToCache, copyWatched, pure_bind, Action.ends_bind, Action.ends_lift]
  refine (closed.after_needToCopy source _ expected world holds).mono fun needed asked holds => ?_
  split
  · have made := closed.parents path wanted asked holds
    refine Action.ends_withParents _ (fun _ => Action.copy source _ >>= fun _ => pure true) asked
      (fun _ => ?_) fun _ _ _ _ => made
    rw [Action.ends_bind]
    exact Action.ends_change _ _ _ _
      (fun fs written => closed.copied path wanted source asked fs holds written) made
  · exact holds

theorem ends_visit (file : Path) (report : SourceReport) (world : World σ) (holds : inv world) :
    (visit inspector cache binaries.byFileName report file).Ends world (fun _ => inv) inv := by
  simp only [visit, Watch.visit, Watch.silent, pure_bind]
  split
  · exact holds
  next bucket found =>
    obtain ⟨name, called, present⟩ := Option.bind_eq_some_iff.1 found
    rw [Action.ends_bind, Action.ends_lift]
    refine (closed.buildId file world holds).mono fun id asked holds => ?_
    refine Action.ends_foldlM _ (fun _ _ => inv) bucket report asked holds ?_
    rintro before ⟨path, expected⟩ rest next between split holds
    have wanted : Wanted binaries path := by
      have member : (path, expected) ∈ sought binaries file := by
        simp [sought, called, present, split]
      exact ⟨SortedMap.contains_of_get? ((mem_sought binaries file path expected).1 member).1,
        names_of_sought member⟩
    simp only [Watch.offer]
    split
    · exact holds
    rw [Action.ends_bind]
    refine (closed.ends_copyToCache path wanted file expected between holds).mono
      (fun answer after holds => ?_) fun _ left => left
    split <;> exact holds

theorem ends_collect (quiet : inspector.Leaves World.files) (dirs : List Path) (world : World σ)
    (holds : inv world) :
    (collect inspector dirs binaries cache).Ends world (fun _ => inv) inv := by
  rw [collect, Watch.collect, Action.ends_bind]
  refine (Action.ends_foldlM _ (fun _ _ => inv) dirs _ world holds ?_).mono
    (fun _ _ holds => holds) fun _ left => left
  intro before dir rest report between _ holds
  refine (ends_walk dir _ (fun _ => inv) inv ?_ (fun _ _ holds => holds) report between holds).mono
    (fun _ _ h => h.1) fun _ left => left
  intro next names first holds _
  -- A walk asks that nothing goes away while it lists what is there.
  exact ((closed.and (grows quiet first.files)).ends_visit (dir.extend names) next first
    ⟨holds, .refl _⟩).mono (fun _ _ kept => kept) fun _ kept => kept.1

end

end Closed

end SearchDirs

namespace DeviceSource

def Receives (cache : Cache) (binaries : RequiredBinaries) (target : Path) : Prop :=
  target = cache.kernelSymbolsPath ∨ ∃ path, Asked binaries path ∧ target = cache.pathOf path

theorem CanMake.receives {chain : List Strategy} {source : String} {target : Path}
    (can : CanMake chain binaries cache (.pull source target)) :
    Receives cache binaries target := by
  obtain service | ⟨path, asked, strategy, -, call⟩ := can
  · exact .inl service.target
  · exact .inr ⟨path, asked, call.target⟩

structure Closed (inspector : Inspector σ) (bridge : Bridge σ) (chain : List Strategy)
    (cache : Cache) (binaries : RequiredBinaries) (inv : World σ → Prop) : Prop where
  buildId : ∀ path world, inv world → (inspector.buildId path).After world fun _ => inv
  available : ∀ world, inv world → bridge.available.After world fun _ => inv
  switchToRoot : ∀ world, inv world → bridge.switchToRoot.After world fun _ => inv
  shell : ∀ arguments, CanMake chain binaries cache (.shell arguments) → ∀ world, inv world →
    (bridge.shell arguments).After world fun _ => inv
  pull : ∀ source target, CanMake chain binaries cache (.pull source target) → ∀ world, inv world →
    (bridge.pull source target).After world fun _ => inv
  made : ∀ world, inv world → inv { world with files := (world.files.makeDirAll cache.root).1 }
  parents : ∀ path, Asked binaries path → ∀ world, inv world →
    inv { world with files := world.files.withParents (cache.pathOf path) }
  cleared : ∀ target, Receives cache binaries target → ∀ (world : World σ) fs, inv world →
    world.files.Cleared fs target → inv { world with files := fs }

namespace Closed

variable {chain : List Strategy}

theorem and {inv' : World σ → Prop} (a : Closed inspector bridge chain cache binaries inv)
    (b : Closed inspector bridge chain cache binaries inv') :
    Closed inspector bridge chain cache binaries fun world => inv world ∧ inv' world where
  buildId path world holds := ⟨a.buildId path world holds.1, b.buildId path world holds.2⟩
  available world holds := ⟨a.available world holds.1, b.available world holds.2⟩
  switchToRoot world holds := ⟨a.switchToRoot world holds.1, b.switchToRoot world holds.2⟩
  shell arguments can world holds :=
    ⟨a.shell arguments can world holds.1, b.shell arguments can world holds.2⟩
  pull source target can world holds :=
    ⟨a.pull source target can world holds.1, b.pull source target can world holds.2⟩
  made world holds := ⟨a.made world holds.1, b.made world holds.2⟩
  parents path asked world holds :=
    ⟨a.parents path asked world holds.1, b.parents path asked world holds.2⟩
  cleared target receives world fs holds cleared :=
    ⟨a.cleared target receives world fs holds.1 cleared,
      b.cleared target receives world fs holds.2 cleared⟩

variable (closed : Closed inspector bridge chain cache binaries inv)

include closed

theorem keeps (path : String) (asked : Asked binaries path) :
    Keeps bridge chain cache path inv where
  shell strategy member arguments call :=
    closed.shell arguments (.inr ⟨path, asked, strategy, member, call⟩)
  pull strategy member source target call :=
    closed.pull source target (.inr ⟨path, asked, strategy, member, call⟩)

theorem ends_collectBinary (report : SourceReport) (path expected : String)
    (required : binaries.contains path = true) (world : World σ) (holds : inv world) :
    (collectBinary inspector bridge chain cache report (path, expected)).Ends world (fun _ => inv)
      inv := by
  by_cases pullable : isPullable path = true
  · exact (closed.keeps path ⟨required, pullable⟩).ends_collectBinary (closed.buildId _)
      (fun isPath => closed.parents path ⟨required, isPath⟩)
      (fun isPath => closed.cleared _ (.inr ⟨path, ⟨required, isPath⟩, rfl⟩)) report expected world
      holds
  · simp only [collectBinary, pullable, Bool.not_false, if_true]
    exact holds

theorem ends_pullKernelSymbols (world : World σ) (holds : inv world) :
    (pullKernelSymbols bridge cache).Ends world (fun _ => inv) inv := by
  refine ends_pullKernelSymbols_of world _ _ fun fs cleared => ?_
  refine (closed.switchToRoot _ (closed.cleared _ (.inl rfl) _ fs holds cleared)).mono
    fun rooted first holds => ?_
  have made := closed.made first holds
  refine ⟨fun _ => holds, fun _ _ => ?_, fun _ _ => made⟩
  exact (closed.shell _ (.inl .unrestrict) _ made).mono fun _ second holds =>
    closed.pull _ _ (.inl .kernelSymbols) second holds

theorem ends_collect (world : World σ) (holds : inv world) :
    (collect inspector bridge chain binaries cache).Ends world (fun _ => inv) inv :=
  ends_collect_of chain world (fun _ _ => inv) _ _ (closed.available world holds)
    (fun _ _ holds => holds)
    (fun _ path expected _ report between split _ holds =>
      closed.ends_collectBinary report path expected
        (SortedMap.contains_of_get? (SortedMap.get?_of_split split)) between holds)
    fun _ between _ holds => closed.ends_pullKernelSymbols between holds

end Closed

end DeviceSource

structure Builder.Closed (builder : Builder σ) (binaries : RequiredBinaries)
    (inv : World σ → Prop) : Prop where
  search : SearchDirs.Closed builder.inspector builder.cache binaries inv
  device : DeviceSource.Closed builder.inspector builder.bridge DeviceSource.defaultChain
    builder.cache binaries inv
  index : Index.Closed builder.inspector builder.cache inv

namespace Builder

variable {builder : Builder σ}

theorem ends_copyFromSearchDirs_closed
    (closed : SearchDirs.Closed builder.inspector builder.cache binaries inv)
    (quiet : builder.inspector.Leaves World.files) (dirs : List Path) (world : World σ)
    (holds : inv world) :
    (builder.copyFromSearchDirs binaries dirs).Ends world (fun _ => inv) inv := by
  rw [copyFromSearchDirs]
  split
  · exact holds
  rw [Action.ends_bind]
  refine (SearchDirs.ends_require dirs world).mono ?_ ?_
  · rintro - _ rfl
    rw [Action.ends_bind]
    exact closed.ends_collect quiet dirs _ holds
  · rintro _ rfl
    exact holds

variable (closed : builder.Closed binaries inv) (quiet : builder.inspector.Leaves World.files)

include closed quiet

theorem Closed.ends_fill (tracePath : Path) (dirs : List Path) (period : Period) (world : World σ)
    (holds : inv world) :
    (builder.fill binaries tracePath dirs period).Ends world (fun _ => inv) inv := by
  rw [fill, Action.ends_bind]
  refine (ends_copyFromSearchDirs_closed closed.search quiet dirs world holds).mono
    (fun copied searched holds => ?_) fun _ left => left
  rw [Action.ends_bind]
  refine (closed.device.ends_collect searched holds).mono (fun pulled filled holds => ?_)
    fun _ left => left
  rw [Action.ends_bind]
  exact (closed.index.ends_store quiet.buildId filled holds).mono (fun _ _ holds => holds)
    fun _ left => left

theorem Closed.build {reader : TraceReader σ} {tracePath : Path} {world : World σ}
    (known : RequiredBinaries) (dirs : List Path) (period : Period)
    (reads : (discover reader tracePath).Ends world (fun _ => inv) inv)
    (found : ∀ others, (discover reader tracePath world).1 = .ok others → others = binaries) :
    inv (builder.build known reader tracePath dirs period world).2 := by
  have holds := reads.both
  rw [Builder.build, Effect.bind_apply]
  unfold ExceptT.run
  rcases ran : discover reader tracePath world with ⟨_ | others, begun⟩
  · rw [ran] at holds
    exact holds
  · rw [ran] at holds
    obtain rfl := found others (by rw [ran])
    simp only [Effect.bind_apply]
    exact (closed.ends_fill quiet tracePath dirs period begun holds).both

end Builder

end BuildIdCache
