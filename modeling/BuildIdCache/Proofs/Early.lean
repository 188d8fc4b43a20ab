import BuildIdCache.Proofs.Build
import BuildIdCache.Proofs.Trace

set_option autoImplicit false

namespace BuildIdCache

variable {σ : Type}

theorem SearchDirs.require_of_missing (before rest : List Path) (dir : Path) (world : World σ)
    (there : ∀ other ∈ before, world.files.isDir other = true)
    (missing : world.files.isDir dir = false) :
    SearchDirs.require (before ++ dir :: rest) world = (.error (.missingSearchDir dir), world) := by
  have listed : Action.files world = (.ok world.files, world) := rfl
  induction before with
  | nil =>
    rw [List.nil_append, SearchDirs.require, Action.bind_of_ok _ _ _ _ _ listed, missing]
    rfl
  | cons first before ih =>
    rw [List.cons_append, SearchDirs.require, Action.bind_of_ok _ _ _ _ _ listed,
      if_pos (there first (by simp))]
    exact ih fun other member => there other (by simp [member])

namespace Builder

variable {builder : Builder σ} {reader : TraceReader σ} {tracePath : Path} {world : World σ}

theorem discover_of_opened {trace : Trace σ} {opened : World σ}
    (ran : reader.openTrace tracePath world = (.ok trace, opened)) :
    ∃ binaries read, discover reader tracePath world =
      (match trace.failure with | some e => .error e | none => .ok binaries, read) := by
  have reads : ((trace.samples.flatMap Sample.frames).foldlM trace.requireFrame .empty).Ends opened
      (fun _ _ => True) fun _ => False := by
    refine Action.ends_foldlM _ (fun _ _ _ => True) _ _ opened trivial ?_
    intro before frame rest binaries between _ _
    rw [Trace.requireFrame]
    split
    · trivial
    · rw [Action.ends_bind, Action.ends_lift]
      exact trivial
  obtain ⟨binaries, read, folded, -⟩ := reads.of_never
  refine ⟨binaries, read, ?_⟩
  rw [discover, Action.bind_of_ok _ _ _ _ _ ran, Trace.discover,
    Action.bind_of_ok _ _ _ _ _ folded]
  cases trace.failure <;> rfl

theorem build_of_unread (known : RequiredBinaries) (dirs : List Path) (period : Period)
    {after : World σ} {e : CacheError} (ran : discover reader tracePath world = (.error e, after)) :
    builder.build known reader tracePath dirs period world = ((known, .error e), after) := by
  rw [build, Effect.bind_apply]
  unfold ExceptT.run
  rw [ran]
  rfl

theorem build_of_missing (known : RequiredBinaries) (period : Period) {begun : World σ}
    {binaries : RequiredBinaries} {before rest : List Path} {dir : Path}
    (ran : discover reader tracePath world = (.ok binaries, begun))
    (there : ∀ other ∈ before, begun.files.isDir other = true)
    (missing : begun.files.isDir dir = false) :
    builder.build known reader tracePath (before ++ dir :: rest) period world =
      ((binaries, .error (.missingSearchDir dir)), begun) := by
  have refused := SearchDirs.require_of_missing before rest dir begun there missing
  have searching : builder.copyFromSearchDirs binaries (before ++ dir :: rest) begun =
      (.error (.missingSearchDir dir), begun) := by
    rw [copyFromSearchDirs, if_neg (by simp), Action.bind_of_error _ _ _ _ _ refused]
  have filling : builder.fill binaries tracePath (before ++ dir :: rest) period begun =
      (.error (.missingSearchDir dir), begun) := Action.bind_of_error _ _ _ _ _ searching
  rw [build, Effect.bind_apply]
  unfold ExceptT.run
  rw [ran]
  simp only [Effect.bind_apply, filling]
  rfl

/-- A world in which nothing has been done but to read a trace. The files are as they were, and so
is whatever else the reader leaves alone: what has been asked of the inspector and of the device. -/
structure OnlyRead (reader : TraceReader σ) (tracePath : Path) (world after : World σ) : Prop where
  read : after = (discover reader tracePath world).2
  files : after.files = world.files
  others : ∀ {τ : Type} (view : World σ → τ), reader.Leaves view → view after = view world

theorem onlyRead (quiet : reader.Leaves World.files) (tracePath : Path) (world : World σ) :
    OnlyRead reader tracePath world (discover reader tracePath world).2 where
  read := rfl
  files := (ends_discover_leaves quiet tracePath world).both
  others _ leaves := (ends_discover_leaves leaves tracePath world).both

/-- A build that cannot read its trace to the end keeps the mapping that was known; one that misses
a search directory names the first that is missing. Neither has done more than to read the trace. -/
theorem build_ends_early (builder : Builder σ) (known : RequiredBinaries) (reader : TraceReader σ)
    (quiet : reader.Leaves World.files) (tracePath : Path) (dirs : List Path) (period : Period)
    (world : World σ) :
    (∀ e opened, reader.openTrace tracePath world = (.error e, opened) →
      ∃ after, builder.build known reader tracePath dirs period world = ((known, .error e), after) ∧
        OnlyRead reader tracePath world after) ∧
    ∀ trace opened, reader.openTrace tracePath world = (.ok trace, opened) →
      (∀ e, trace.failure = some e →
        ∃ after, builder.build known reader tracePath dirs period world =
          ((known, .error e), after) ∧ OnlyRead reader tracePath world after) ∧
      (trace.failure = none → ∀ before dir rest, dirs = before ++ dir :: rest →
        (∀ other ∈ before, world.files.isDir other = true) → world.files.isDir dir = false →
          ∃ binaries after, builder.build known reader tracePath dirs period world =
            ((binaries, .error (.missingSearchDir dir)), after) ∧
            OnlyRead reader tracePath world after) := by
  have only := onlyRead quiet tracePath world
  refine ⟨fun e opened unopened => ?_, fun trace opened ran => ⟨fun e fails => ?_, ?_⟩⟩
  · have unread : discover reader tracePath world = (.error e, opened) :=
      Action.bind_of_error _ _ _ _ _ unopened
    rw [unread] at only
    exact ⟨opened, build_of_unread known dirs period unread, only⟩
  · obtain ⟨binaries, read, unread⟩ := discover_of_opened ran
    rw [fails] at unread
    rw [unread] at only
    exact ⟨read, build_of_unread known dirs period unread, only⟩
  · rintro whole before dir rest rfl there missing
    obtain ⟨binaries, read, found⟩ := discover_of_opened ran
    rw [whole] at found
    rw [found] at only
    exact ⟨binaries, read, build_of_missing known period found (only.files ▸ there)
      (only.files ▸ missing), only⟩

structure Logged where
  device : Simulated.Device
  calls : List Bridge.Call
  asked : List Path

def logging : Builder Logged where
  inspector :=
    (Inspector.ofContent "sample" Sample.reading.buildId Sample.reading.sections).recorded
    ⟨Logged.asked, fun asked log => { log with asked }⟩
  bridge := (Simulated.bridge ⟨Logged.device, fun device log => { log with device }⟩).recorded
    ⟨Logged.calls, fun calls log => { log with calls }⟩
  cache := Sample.cache

def cutReader (failure : Option CacheError) : TraceReader Logged :=
  ⟨fun _ => pure ⟨[⟨some ⟨"/a", none⟩, []⟩], failure, fun _ => pure "1"⟩⟩

theorem cutReader_leaves {τ : Type} (failure : Option CacheError) (view : World Logged → τ) :
    (cutReader failure).Leaves view :=
  fun _ _ => ⟨rfl, fun _ _ => rfl⟩

theorem build_ends_early_sample :
    let world : World Logged := ⟨Sample.files Sample.stripped Sample.withSymbols, ⟨default, [], []⟩⟩
    (∃ after, logging.build .empty (cutReader (some (.trace (.reported "cut off")))) (.ofString "t")
        [.ofString "l"] default world = ((.empty, .error (.trace (.reported "cut off"))), after) ∧
      after.files = world.files ∧ after.rest.calls = [] ∧ after.rest.asked = []) ∧
    ∃ binaries after, logging.build .empty (cutReader none) (.ofString "t")
        [.ofString "l", .ofString "m", .ofString "n"] default world =
          ((binaries, .error (.missingSearchDir (.ofString "m"))), after) ∧
      after.files = world.files ∧ after.rest.calls = [] ∧ after.rest.asked = [] := by
  intro world
  constructor
  · obtain ⟨after, built, only⟩ := ((build_ends_early logging .empty
      (cutReader (some (.trace (.reported "cut off")))) (cutReader_leaves _ _) (.ofString "t")
      [.ofString "l"] default world).2 _ world rfl).1 _ rfl
    exact ⟨after, built, only.files, only.others (·.rest.calls) (cutReader_leaves _ _),
      only.others (·.rest.asked) (cutReader_leaves _ _)⟩
  · obtain ⟨binaries, after, built, only⟩ := ((build_ends_early logging .empty (cutReader none)
      (cutReader_leaves _ _) (.ofString "t") [.ofString "l", .ofString "m", .ofString "n"] default
      world).2 _ world rfl).2 rfl [.ofString "l"] (.ofString "m") [.ofString "n"] rfl
      (by simp only [List.mem_singleton, forall_eq]; cbv) (by cbv)
    exact ⟨binaries, after, built, only.files, only.others (·.rest.calls) (cutReader_leaves _ _),
      only.others (·.rest.asked) (cutReader_leaves _ _)⟩

end Builder

end BuildIdCache
