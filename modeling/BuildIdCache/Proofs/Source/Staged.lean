import BuildIdCache.Proofs.Source.Device

set_option autoImplicit false

namespace BuildIdCache

open DeviceSource

variable {σ : Type}

/-- What a bridge does to the files that are held by the device: only copying adds one, and what is
removed is gone. -/
structure Bridge.Stages (bridge : Bridge σ) (held : σ → String → Prop) : Prop where
  available : ∀ world, bridge.available.After world fun _ after =>
    ∀ file, held after.rest file ↔ held world.rest file
  switchToRoot : ∀ world, bridge.switchToRoot.After world fun _ after =>
    ∀ file, held after.rest file ↔ held world.rest file
  echo : ∀ arguments world, (bridge.shell ("echo" :: arguments)).After world fun _ after =>
    ∀ file, held after.rest file ↔ held world.rest file
  pull : ∀ source target world, (bridge.pull source target).After world fun _ after =>
    ∀ file, held after.rest file ↔ held world.rest file
  copy : ∀ source dir world, (bridge.shell ["cp", source, dir]).After world fun copied after =>
    (∀ file, held after.rest file → held world.rest file ∨ file = stagedPath dir source) ∧
      (copied = true → held after.rest (stagedPath dir source))
  remove : ∀ path world, (bridge.shell ["rm", path]).After world fun _ after =>
    ∀ file, held after.rest file → held world.rest file ∧ file ≠ path

def Simulated.Device.Holds (device : Simulated.Device) (file : String) : Prop :=
  device.scratch.contains file = true

theorem Simulated.Device.holds_insert (device : Simulated.Device) (path file : String)
    (content : ByteArray) :
    { device with scratch := device.scratch.insert path content }.Holds file ↔
      device.Holds file ∨ file = path := by
  simp only [Holds, SortedMap.contains, SortedMap.get?_insert, Std.LawfulEqOrd.compare_eq_iff_eq]
  by_cases same : path = file
  · simp [same]
  · simp [same, Ne.symm same]

theorem Simulated.Device.holds_erase (device : Simulated.Device) (path file : String) :
    { device with scratch := device.scratch.erase path }.Holds file ↔
      device.Holds file ∧ file ≠ path := by
  simp only [Holds, SortedMap.contains, SortedMap.erase, SortedMap.get?_filter]
  by_cases same : file = path <;> simp [same]

theorem Simulated.bridge_stages :
    (Simulated.bridge .whole : Bridge Simulated.Device).Stages Simulated.Device.Holds where
  available _ _ := Iff.rfl
  switchToRoot _ _ := Iff.rfl
  echo _ _ _ := Iff.rfl
  pull source target world := by
    simp only [Simulated.bridge, Effect.after_bind, Effect.after_read]
    split
    · exact fun _ => Iff.rfl
    · simp only [Effect.after_bind, Effect.after_files]
      split <;> exact fun _ => Iff.rfl
  copy source dir world := by
    simp only [Simulated.bridge, Effect.after_bind, Effect.after_read, Part.whole, id_eq]
    cases there : world.rest.files.get? source with
    | none =>
      have missing : world.rest.shell ["cp", source, dir] = (false, world.rest) := by
        simp [Simulated.Device.shell, there]
      rw [missing]
      exact ⟨fun _ now => .inl now, fun never => by cases never⟩
    | some content =>
      have copied : world.rest.shell ["cp", source, dir] = (true, { world.rest with
          scratch := world.rest.scratch.insert (stagedPath dir source) content }) := by
        simp [Simulated.Device.shell, there, stagedPath]
      rw [copied]
      exact ⟨fun file now => (world.rest.holds_insert _ file content).1 now,
        fun _ => (world.rest.holds_insert _ _ content).2 (.inr rfl)⟩
  remove path world := fun file now => (world.rest.holds_erase path file).1 now

namespace DeviceSource

variable {bridge : Bridge σ} {held : σ → String → Prop}

def attempts (bridge : Bridge σ) (path : String) (target : Path) :
    List Strategy → World σ → List (Strategy × World σ)
  | [], _ => []
  | strategy :: rest, world =>
    let (pulled, after) := attempt bridge path target strategy world
    (strategy, world) :: if pulled then [] else attempts bridge path target rest after

theorem after_pullFile_of_attempts (fact : World σ → Prop) (cause : Strategy × World σ → Prop)
    (path : String) (target : Path) (chain : List Strategy) (world : World σ)
    (each : ∀ strategy first, (attempt bridge path target strategy).After first fun _ after =>
      fact after → fact first ∨ cause (strategy, first)) :
    (pullFile bridge path target chain).After world fun _ after =>
      fact after → fact world ∨ ∃ tried ∈ attempts bridge path target chain world, cause tried := by
  induction chain generalizing world with
  | nil => exact fun now => .inl now
  | cons strategy rest ih =>
    rw [pullFile, Effect.after_bind]
    rcases ran : attempt bridge path target strategy world with ⟨answer, first⟩
    have here := (each strategy world).of_run ran
    rw [Effect.After, ran]
    simp only [attempts, ran]
    cases answer with
    | true =>
      intro now
      exact (here now).imp_right fun caused => ⟨(strategy, world), by simp, caused⟩
    | false =>
      refine (ih first).mono fun _ last more now => ?_
      rcases more now with early | ⟨tried, member, caused⟩
      · exact (here early).imp_right fun caused => ⟨(strategy, world), by simp, caused⟩
      · exact .inr ⟨tried, List.mem_cons_of_mem _ member, caused⟩

/-- A copy that one of the attempts leaves on the device when it fails. -/
def Left (bridge : Bridge σ) (held : σ → String → Prop) (path : String) (target : Path)
    (made : List (Strategy × World σ)) (file : String) : Prop :=
  ∃ dir first last, (.scratchCopy dir, first) ∈ made ∧ file = stagedPath dir path ∧
    attempt bridge path target (.scratchCopy dir) first = (false, last) ∧ held last.rest file

section

variable (stages : bridge.Stages held)

include stages

theorem after_attempt_held (path : String) (target : Path) (strategy : Strategy) (world : World σ) :
    (attempt bridge path target strategy).After world fun answer after =>
      ∀ file, held after.rest file → held world.rest file ∨
        answer = false ∧ ∃ dir, strategy = .scratchCopy dir ∧ file = stagedPath dir path := by
  apply after_attempt_of path target strategy world
  · exact fun _ => (stages.pull path target world).mono
      fun _ _ same file now => .inl ((same file).1 now)
  · intro dir staging
    refine (stages.copy path dir world).mono fun copied first copying => ?_
    have added := copying.1
    constructor
    · intro _ file now
      exact (added file now).imp_right fun staged => ⟨rfl, dir, staging, staged⟩
    · intro _
      refine (stages.pull _ target first).mono fun pulled second same => ?_
      constructor
      · intro _ file now
        exact (added file ((same file).1 now)).imp_right fun staged => ⟨rfl, dir, staging, staged⟩
      · intro _
        refine (stages.remove _ second).mono fun _ third removed file now => ?_
        obtain ⟨before, other⟩ := removed file now
        exact .inl ((added file ((same file).1 before)).resolve_right other)

theorem after_pullFile_held (path : String) (target : Path) (chain : List Strategy)
    (world : World σ) :
    (pullFile bridge path target chain).After world fun _ after =>
      ∀ file, held after.rest file → held world.rest file ∨
        Left bridge held path target (attempts bridge path target chain world) file := by
  intro file now
  have caused := @after_pullFile_of_attempts _ bridge
    (fun after => held after.rest file)
    (fun (strategy, first) => ∃ dir last, strategy = .scratchCopy dir ∧
      file = stagedPath dir path ∧ attempt bridge path target strategy first = (false, last) ∧
      held last.rest file) path target chain world fun strategy first now => ?_
  · refine (caused now).imp_right ?_
    rintro ⟨⟨_, first⟩, member, dir, last, rfl, staged, failed, left⟩
    exact ⟨dir, first, last, member, staged, failed, left⟩
  · refine (after_attempt_held stages path target strategy first file now).imp_right ?_
    rintro ⟨failed, dir, isCopy, staged⟩
    exact ⟨dir, _, isCopy, staged, Prod.ext failed rfl, now⟩

/-- A file that was on the device before, or a copy that an attempt of the run left there. -/
def Explained (inspector : Inspector σ) (bridge : Bridge σ) (held : σ → String → Prop)
    (chain : List Strategy) (binaries : RequiredBinaries) (cache : Cache) (world : World σ)
    (file : String) : Prop :=
  held world.rest file ∨
    ∃ path first, Pulls inspector bridge chain binaries cache world path first ∧
    Left bridge held path (cache.pathOf path)
      (attempts bridge path (cache.pathOf path) chain first) file

def AllExplained (inspector : Inspector σ) (bridge : Bridge σ) (held : σ → String → Prop)
    (chain : List Strategy) (binaries : RequiredBinaries) (cache : Cache) (start now : World σ) :
    Prop :=
  ∀ file, held now.rest file → Explained inspector bridge held chain binaries cache start file

omit stages in
theorem AllExplained.mono {inspector : Inspector σ} {cache : Cache} {binaries : RequiredBinaries}
    {chain : List Strategy} {start now later : World σ}
    (explained : AllExplained inspector bridge held chain binaries cache start now)
    (heldBefore : ∀ file, held later.rest file → held now.rest file) :
    AllExplained inspector bridge held chain binaries cache start later :=
  fun file isHeld => explained file (heldBefore file isHeld)

section

variable {inspector : Inspector σ} {cache : Cache} {binaries : RequiredBinaries}
  {chain : List Strategy} {start : World σ}
  (quiet : ∀ path world, (inspector.buildId path).After world fun _ after =>
    ∀ file, held after.rest file → held world.rest file)

include quiet

theorem ends_collectBinary_held (before rest : List (String × String)) (report : SourceReport)
    (path expected : String) (world : World σ)
    (split : binaries.entries = before ++ (path, expected) :: rest)
    (ran : Reports inspector bridge chain cache start before report world)
    (holds : AllExplained inspector bridge held chain binaries cache start world) :
    (collectBinary inspector bridge chain cache report (path, expected)).Ends world
      (fun _ => AllExplained inspector bridge held chain binaries cache start)
      (AllExplained inspector bridge held chain binaries cache start) := by
  have asked : ∀ answer between,
      isTrusted inspector (cache.pathOf path) expected world = (answer, between) →
        AllExplained inspector bridge held chain binaries cache start between := by
    intro answer between asking
    have asked : (isTrusted inspector (cache.pathOf path) expected).After world fun _ after =>
        ∀ file, held after.rest file → held world.rest file :=
      after_isTrusted_of _ expected world (fun _ now => now) (quiet _ world)
    exact holds.mono (asked.of_run asking)
  refine ends_collectBinary_of chain report path expected world _ _ (fun _ => holds)
    (fun between _ asking => asked true between asking)
    (fun between fs pullable asking _ cleared => ?_)
    fun between _ _ _ asking _ _ => asked false between asking
  -- Only the attempts to pull the path can leave a copy.
  refine (after_pullFile_held stages path _ chain { between with files := fs }).mono
    fun _ after more file now => ?_
  rcases more file now with present | left
  · exact asked false between asking file present
  · exact .inr ⟨path, { between with files := fs },
      ⟨before, expected, rest, report, world, between, split, ran, pullable, asking, cleared, rfl⟩,
      left⟩

omit quiet in
theorem ends_pullKernelSymbols_held (world : World σ)
    (holds : AllExplained inspector bridge held chain binaries cache start world) :
    (pullKernelSymbols bridge cache).Ends world
      (fun _ => AllExplained inspector bridge held chain binaries cache start)
      (AllExplained inspector bridge held chain binaries cache start) := by
  refine ends_pullKernelSymbols_of world _ _ fun fs _ => ?_
  refine (stages.switchToRoot _).mono fun rooted first same => ?_
  have still : AllExplained inspector bridge held chain binaries cache start first :=
    holds.mono fun file => (same file).1
  refine ⟨fun _ => still, fun _ _ => ?_, fun _ _ => still⟩
  refine (stages.echo _ _).mono fun _ second same => ?_
  refine (stages.pull _ _ second).mono fun _ third same' => ?_
  exact still.mono fun file now => (same file).1 ((same' file).1 now)

end

end

/-- What the device holds after a run it held before, but for the copies that were left there by an
attempt that failed; and each attempt that can copy a file but not pull the copy leaves it. -/
theorem collect_leaves_failed_copies {inspector : Inspector σ} (stages : bridge.Stages held)
    (quiet : ∀ path world, (inspector.buildId path).After world fun _ after =>
      ∀ file, held after.rest file → held world.rest file)
    (chain : List Strategy) (binaries : RequiredBinaries) (cache : Cache) (world : World σ) :
    (∀ file, held (collect inspector bridge chain binaries cache world).2.rest file →
      Explained inspector bridge held chain binaries cache world file) ∧
    ∀ path dir target before copied pulled,
      bridge.shell ["cp", path, dir] before = (true, copied) →
      bridge.pull (stagedPath dir path) target copied = (false, pulled) →
      attempt bridge path target (.scratchCopy dir) before = (false, pulled) ∧
        held pulled.rest (stagedPath dir path) := by
  constructor
  · have ends : (collect inspector bridge chain binaries cache).Ends world
        (fun _ => AllExplained inspector bridge held chain binaries cache world)
        (AllExplained inspector bridge held chain binaries cache world) := by
      refine ends_collect_of chain world
        (fun _ _ => AllExplained inspector bridge held chain binaries cache world) _ _
        ((stages.available world).mono fun _ first same file now => .inl ((same file).1 now))
        (fun _ _ holds => holds) (fun before path expected rest report between split ran holds =>
          ends_collectBinary_held stages quiet before rest report path expected between split
            ran holds)
        fun report between _ holds => ends_pullKernelSymbols_held stages between holds
    exact ends.both
  · intro path dir target before copied pulled copying pulling
    have added := ((stages.copy path dir before).of_run copying).2 rfl
    have kept := (stages.pull (stagedPath dir path) target copied).of_run pulling
    refine ⟨?_, (kept _).2 added⟩
    simp only [attempt, Effect.bind_apply, copying, pulling, Bool.not_true, Bool.not_false,
      Bool.false_eq_true, if_false, if_true]
    rfl

theorem collect_leaves_failed_copies_sample :
    Explained sampleInspector (Simulated.bridge .whole) Simulated.Device.Holds defaultChain
      (Sample.binaries "1") Sample.cache
      ⟨FileSystem.empty, sampleDevice ["/a", "/data/local/tmp/a"]⟩ "/data/local/tmp/a" :=
  (collect_leaves_failed_copies Simulated.bridge_stages
    (fun path world => (Inspector.ofContent_quiet _ _ _ path world).mono
      fun _ _ same _ now => same ▸ now) defaultChain (Sample.binaries "1") Sample.cache
    ⟨FileSystem.empty, sampleDevice ["/a", "/data/local/tmp/a"]⟩).1 "/data/local/tmp/a"
    sampleCollect_unreadable.2

theorem failed_copy_stays :
    (sampleDevice ["/a", "/data/local/tmp/a"]).scratch.contains "/data/local/tmp/a" = false ∧
      (sampleCollect ["/a", "/data/local/tmp/a"]).2.rest.scratch.contains "/data/local/tmp/a" =
        true :=
  ⟨by cbv, sampleCollect_unreadable.2⟩

end DeviceSource

end BuildIdCache
