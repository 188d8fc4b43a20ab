import BuildIdCache.Proofs.Closed
import BuildIdCache.Proofs.FileSystem.Own

set_option autoImplicit false

namespace BuildIdCache

open FileSystem

variable {σ : Type}

/-- The names below the root of a cache that are its own: those of the required paths, of the kernel
symbols and of the list. -/
def Cache.Owns (binaries : RequiredBinaries) (names : List Name) : Prop :=
  names = [kernelSymbolsName] ∨ names = [listName] ∨
    ∃ path, binaries.contains path = true ∧ names = (cacheRelative path).names

theorem names_ne_nil_of_normalParts {recorded : String} (normal : normalParts recorded ≠ []) :
    (cacheRelative recorded).names ≠ [] := by
  intro none
  have bytes := bytes_cacheRelative recorded
  rw [none, List.map_nil, eq_comm, List.map_eq_nil_iff] at bytes
  exact normal bytes

theorem DeviceSource.owns_of_receives {cache : Cache} {binaries : RequiredBinaries} {target : Path}
    (receives : Receives cache binaries target)
    (named : ∀ path, Asked binaries path → (cacheRelative path).names ≠ []) :
    ∃ names, names ≠ [] ∧ Cache.Owns binaries names ∧ target = cache.root.extend names := by
  obtain rfl | ⟨path, asked, rfl⟩ := receives
  · exact ⟨_, by simp, .inl rfl, rfl⟩
  · exact ⟨_, named path asked, .inr (.inr ⟨path, asked.1, rfl⟩), rfl⟩

/-- A change of a cache: no directory goes away, outside nothing comes but directories that the root
is reached through, and of what is inside nothing changes but what the cache owns, and the
directories on the way to that. -/
structure Cache.Changes (cache : Cache) (binaries : RequiredBinaries) (before after : FileSystem) :
    Prop where
  workingDir : after.workingDir = before.workingDir
  dirs : ∀ place, before.at? place = some .dir → after.at? place = some .dir
  outside : ∀ place, (∀ top, before.aimAt cache.root = some top → ¬top <+: place) →
    after.at? place = before.at? place ∨
      before.at? place = none ∧ after.at? place = some .dir ∧ before.Passes cache.root place
  inside : ∀ top names, before.aimAt cache.root = some top → ¬Cache.Owns binaries names →
    after.at? (top ++ names) = before.at? (top ++ names) ∨
      before.at? (top ++ names) = none ∧ after.at? (top ++ names) = some .dir ∧
        before.OnWay cache.root (Cache.Owns binaries) (top ++ names)

theorem FileSystem.KeepsTo.changes {cache : Cache} {binaries : RequiredBinaries}
    {before after : FileSystem} {fits : Option Entry → Prop}
    (keeps : KeepsTo before after cache.root (Cache.Owns binaries) fits) :
    cache.Changes binaries before after where
  workingDir := keeps.steady.workingDir
  dirs := keeps.steady.dirs
  outside place apart := by
    have away : ¬before.Meant cache.root (Cache.Owns binaries) place := by
      rintro ⟨top, names, leads, -, rfl⟩
      exact apart top leads (List.prefix_append _ _)
    rcases keeps.at? place with same | ⟨meant, -⟩ | ⟨meant | absent, made, way⟩
    · exact .inl same
    · exact absurd meant away
    · exact absurd meant away
    · obtain passes | ⟨top, front, -, leads, -, -, rfl⟩ := way
      · exact .inr ⟨absent, made, passes⟩
      · exact absurd (List.prefix_append _ _) (apart top leads)
  inside top names leads foreign := by
    have away : ¬before.Meant cache.root (Cache.Owns binaries) (top ++ names) := by
      rintro ⟨other, own, leads', owns, same⟩
      obtain rfl : top = other := Option.some.inj (leads.symm.trans leads')
      exact foreign (List.append_cancel_left same ▸ owns)
    rcases keeps.at? (top ++ names) with same | ⟨meant, -⟩ | ⟨meant | absent, made, way⟩
    · exact .inl same
    · exact absurd meant away
    · exact absurd meant away
    · exact .inr ⟨absent, made, way⟩

section

variable {inspector : Inspector σ} (quiet : inspector.Leaves World.files) {bridge : Bridge σ}
  {cache : Cache} {binaries : RequiredBinaries} {start : FileSystem}
  (plain : start.PlainBelow cache.root) {fits : Option Entry → Prop}

include quiet plain

theorem SearchDirs.closed_keepsTo (file : ∀ content, fits (some (.file content))) :
    Closed inspector cache binaries fun world =>
      KeepsTo start world.files cache.root (Cache.Owns binaries) fits where
  buildId path world keeps := (quiet.buildId path world).mono fun _ _ same => same ▸ keeps
  sections path world keeps := (quiet.sections path world).mono fun _ _ same => same ▸ keeps
  parents path wanted _ keeps := keeps.trans (keepsTo_of_withParents
    (keeps.steady.plainBelow plain) (.inr (.inr ⟨path, wanted.1, rfl⟩)) wanted.2)
  copied path wanted source _ _ keeps written := keeps.trans (keepsTo_of_copied
    (keeps.steady.plainBelow plain) (.inr (.inr ⟨path, wanted.1, rfl⟩)) wanted.2 file source
      written)

theorem Index.closed_keepsTo (file : ∀ content, fits (some (.file content))) :
    Closed inspector cache fun world =>
      KeepsTo start world.files cache.root (Cache.Owns binaries) fits where
  buildId path world keeps := (quiet.buildId path world).mono fun _ _ same => same ▸ keeps
  made _ keeps := keeps.trans keepsTo_of_makeDirAll
  written _ _ _ keeps written :=
    keeps.trans (keepsTo_of_write (keeps.steady.plainBelow plain) (.inr (.inl rfl)) file written)

theorem DeviceSource.closed_keepsTo {chain : List Strategy} (confined : bridge.Confined)
    (named : ∀ path, Asked binaries path → (cacheRelative path).names ≠ []) (gone : fits none)
    (left : ∀ source target world, (bridge.pull source target).After world fun _ after =>
      ∀ place, after.files.at? place = world.files.at? place ∨ fits (after.files.at? place)) :
    Closed inspector bridge chain cache binaries fun world =>
      KeepsTo start world.files cache.root (Cache.Owns binaries) fits where
  buildId path world keeps := (quiet.buildId path world).mono fun _ _ same => same ▸ keeps
  available world keeps := (confined.available world).mono fun _ _ same => same ▸ keeps
  switchToRoot world keeps := (confined.switchToRoot world).mono fun _ _ same => same ▸ keeps
  shell arguments _ world keeps :=
    (confined.shell arguments world).mono fun _ _ same => same ▸ keeps
  pull source target can world keeps := by
    obtain ⟨names, -, owns, rfl⟩ := owns_of_receives can.receives named
    have both : (bridge.pull source (cache.root.extend names)).After world
        fun _ after => world.files.TouchesOnly after.files (cache.root.extend names) ∧
          ∀ place, after.files.at? place = world.files.at? place ∨ fits (after.files.at? place) :=
      ⟨confined.pull _ _ world, left _ _ world⟩
    exact both.mono fun _ after pulled => keeps.trans
      (keepsTo_of_touchesOnly (keeps.steady.plainBelow plain) owns pulled.1 pulled.2)
  made _ keeps := keeps.trans keepsTo_of_makeDirAll
  parents path asked _ keeps := keeps.trans (keepsTo_of_withParents
    (keeps.steady.plainBelow plain) (.inr (.inr ⟨path, asked.1, rfl⟩)) (named path asked))
  cleared target receives world fs keeps cleared := by
    obtain ⟨names, further, owns, rfl⟩ := owns_of_receives receives named
    exact keeps.trans (keepsTo_of_cleared (keeps.steady.plainBelow plain) owns further cleared gone)

end

namespace Builder

theorem build_touches_own (builder : Builder σ) (quiet : builder.inspector.Leaves World.files)
    (confined : builder.bridge.Confined) (reader : TraceReader σ)
    (reads : reader.Leaves World.files) (known : RequiredBinaries) (tracePath : Path)
    (dirs : List Path) (period : Period) (world : World σ)
    (plain : world.files.PlainBelow builder.cache.root)
    (binaries : RequiredBinaries)
    (found : ∀ others, (discover reader tracePath world).1 = .ok others → others = binaries)
    (named : ∀ path, binaries.contains path = true → normalParts path ≠ []) :
    let after := (builder.build known reader tracePath dirs period world).2.files
    builder.cache.Changes binaries world.files after ∧
      ((∀ source target world place, (builder.bridge.pull source target).After world
        fun _ later => later.files.at? place = some .dir → world.files.at? place = some .dir) →
        ∀ place, after.at? place = some .dir → world.files.at? place = some .dir ∨
          world.files.OnWay builder.cache.root (Cache.Owns binaries) place) := by
  intro after
  -- The same invariant serves both parts: with any entry for the first, without a directory that
  -- comes for the second.
  have keeps : ∀ fits : Option Entry → Prop, fits none → (∀ content, fits (some (.file content))) →
      (∀ source target between, (builder.bridge.pull source target).After between fun _ later =>
        ∀ place, later.files.at? place = between.files.at? place ∨ fits (later.files.at? place)) →
      KeepsTo world.files after builder.cache.root (Cache.Owns binaries) fits := by
    intro fits gone file left
    have closed : builder.Closed binaries fun between =>
        KeepsTo world.files between.files builder.cache.root (Cache.Owns binaries) fits :=
      ⟨SearchDirs.closed_keepsTo quiet plain file,
        DeviceSource.closed_keepsTo quiet plain confined
          (fun path asked => names_ne_nil_of_normalParts (named path asked.1)) gone left,
        Index.closed_keepsTo quiet plain file⟩
    exact closed.build quiet known dirs period ((ends_discover_leaves reads tracePath world).mono
      (fun _ _ same => same ▸ .refl _) fun _ same => same ▸ .refl _) found
  constructor
  · exact (keeps (fun _ => True) trivial (fun _ => trivial) fun _ _ _ _ => .inr trivial).changes
  · intro pullsFiles place isDir
    have noNewDir := keeps (fun entry => entry ≠ some .dir) (by simp) (by simp)
      fun source target between place => by
        by_cases made : ((builder.bridge.pull source target) between).2.files.at? place = some .dir
        · exact .inl (made.trans (pullsFiles source target between place made).symm)
        · exact .inr made
    rcases noNewDir.at? place with same | ⟨-, noDir⟩ | ⟨-, -, way⟩
    · exact .inl (same.symm.trans isDir)
    · exact absurd isDir noDir
    · exact .inr way

theorem build_touches_own_sample :
    let world : World Simulated.Device :=
      ⟨Sample.files Sample.stripped Sample.withSymbols, DeviceSource.sampleDevice []⟩
    sample.cache.Changes (Sample.binaries "1") world.files
      (sample.build .empty sampleReader (.ofString "t") [.ofString "c"] default world).2.files := by
  intro world
  refine (build_touches_own sample (Inspector.ofContent_reads _ Sample.reading).leaves
    (Simulated.bridge_confined _) sampleReader (fun _ _ => ⟨rfl, fun _ _ => rfl⟩) .empty
    (.ofString "t") [.ofString "c"] default world (Sample.plain _ _) (Sample.binaries "1")
    (fun others found => (Except.ok.inj found).symm) fun path required => ?_).1
  rw [Sample.only_path required]
  decide

end Builder

end BuildIdCache
