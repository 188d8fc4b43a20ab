import BuildIdCache.Build
import BuildIdCache.Proofs.World
import BuildIdCache.Trace.Reader

set_option autoImplicit false

namespace BuildIdCache

variable {σ τ : Type} {view : World σ → τ}

def TraceReader.Leaves (reader : TraceReader σ) (view : World σ → τ) : Prop :=
  ∀ path world, (reader.openTrace path).Ends world
    (fun trace after => view after = view world ∧ ∀ dso, (trace.buildId dso).Leaves view)
    fun after => view after = view world

structure TraceReader.KeepsFiles (reader : TraceReader σ) : Prop where
  openTrace : ∀ path world, (reader.openTrace path).Ends world
    (fun trace after => after.files = world.files ∧ ∀ dso between,
      (trace.buildId dso).After between fun _ later => later.files = between.files)
    fun _ => True

theorem TraceReader.Leaves.keepsFiles {reader : TraceReader σ}
    (leaves : reader.Leaves World.files) :
    reader.KeepsFiles :=
  ⟨fun path world => (leaves path world).mono (fun _ _ opened => opened) fun _ _ => trivial⟩

def Tools.Leaves (tools : Tools σ) (view : World σ → τ) : Prop :=
  ∀ path arguments, (tools.spawn path arguments).Leaves view

theorem Tools.ends_run {tools : Tools σ} (leaves : tools.Leaves view) (path : Path)
    (arguments : List (List UInt8)) (world : World σ) :
    (tools.run path arguments).Ends world (fun _ after => view after = view world)
      fun after => view after = view world := by
  rw [Tools.run, Action.ends_bind, Action.ends_lift]
  refine (leaves path arguments world).mono fun output after same => ?_
  split <;> exact same

namespace Trace.Reader

variable {α β : Type}

theorem Step.bind_apply (step : Step σ α) (next : α → Step σ β) (reader : Reader)
    (world : World σ) :
    (step >>= next) reader world = match step reader world with
      | ((.ok answer, left), after) => next answer left after
      | ((.error e, left), after) => ((.error e, left), after) := by
  change (match step reader world with
    | ((answer, left), after) => ExceptT.bindCont next answer left after) = _
  rcases step reader world with ⟨⟨e | answer, left⟩, after⟩ <;> rfl

variable (tools : Tools σ) (env : Environment) (path : Path) (reader : Reader) (world : World σ)

theorem setRecordFile_eq :
    setRecordFile tools env path reader world =
      match recordText tools env reader.profiler path world with
      | (.ok text, after) => ((.ok (), reader.loadText text), after)
      | (.error e, after) => ((.error e, reader), after) := by
  change (Step.ofAction (recordText tools env reader.profiler path) >>=
    fun text => modify (·.loadText text) : Step σ Unit) reader world = _
  rw [Step.bind_apply, Step.ofAction]
  rcases recordText tools env reader.profiler path world with ⟨e | text, after⟩ <;> rfl

theorem openTrace_eq :
    reader.openTrace tools env path =
      recordText tools env reader.profiler path >>= fun text => pure (reader.loadText text) := by
  funext world
  rw [openTrace, setRecordFile_eq, Action.bind_apply]
  rcases recordText tools env reader.profiler path world with ⟨e | text, after⟩ <;> rfl

end Trace.Reader

theorem Trace.ends_dumpText {tools : Tools σ} (leaves : tools.Leaves view) (env : Environment)
    (profiler : Option Path) (path : Path) (world : World σ) :
    (dumpText tools env profiler path).Ends world (fun _ after => view after = view world)
      fun after => view after = view world := by
  rw [dumpText, Action.ends_bind, Action.ends_files]
  split
  · exact rfl
  next profiler _ =>
    refine Action.ends_foldlM _ (fun _ _ after => view after = view world) _ _ world rfl ?_
    intro before arguments rest text between _ same
    rw [dumpPart, Action.ends_bind]
    refine (Tools.ends_run leaves profiler arguments between).mono (fun output after same' => ?_)
      fun _ same' => same'.trans same
    split <;> exact same'.trans same

theorem Trace.Reader.leaves (reader : Trace.Reader) {tools : Tools σ} (leaves : tools.Leaves view)
    (env : Environment) : (reader.traceReader tools env).Leaves view := by
  intro path world
  simp only [traceReader, openTrace_eq, recordText, Action.ends_bind, Action.ends_isFile]
  split
  · exact rfl
  · simp only [Action.read, Action.ends_bind, Action.ends_files]
    split
    · simp only [Action.ends_pure]
      split
      · exact (ends_dumpText leaves env reader.profiler path world).mono
          (fun _ _ same => ⟨same, fun _ _ => rfl⟩) fun _ left => left
      · exact ⟨rfl, fun _ _ => rfl⟩
    · exact rfl

theorem Trace.Reader.keepsFiles (reader : Trace.Reader) {tools : Tools σ}
    (leaves : tools.Leaves World.files) (env : Environment) :
    (reader.traceReader tools env).KeepsFiles :=
  (reader.leaves leaves env).keepsFiles

namespace Builder

variable {reader : TraceReader σ}

theorem ends_discover_of {failed : World σ → Prop} (tracePath : Path) (world : World σ)
    (opens : (reader.openTrace tracePath).Ends world
      (fun trace after => view after = view world ∧ ∀ dso, (trace.buildId dso).Leaves view) failed)
    (fails : ∀ after, view after = view world → failed after) :
    (discover reader tracePath).Ends world (fun _ after => view after = view world) failed := by
  rw [discover, Action.ends_bind]
  refine opens.mono (fun trace opened h => ?_) fun _ left => left
  rw [Trace.discover, Action.ends_bind]
  refine (Action.ends_foldlM _ (fun _ _ after => view after = view world) _ _ opened h.1
    ?_).mono (fun binaries after same => ?_) fun _ left => left
  · intro before frame rest binaries between _ same
    rw [Trace.requireFrame]
    split
    · exact same
    · rw [Action.ends_bind, Action.ends_lift]
      exact (h.2 frame.dso between).mono fun _ _ same' => same'.trans same
  · split
    · exact fails after same
    · exact same

theorem ends_discover (keepsFiles : reader.KeepsFiles) (tracePath : Path) (world : World σ) :
    (discover reader tracePath).Ends world (fun _ after => after.files = world.files)
      fun _ => True :=
  ends_discover_of tracePath world (keepsFiles.openTrace tracePath world) fun _ _ => trivial

theorem ends_discover_leaves (leaves : reader.Leaves view) (tracePath : Path) (world : World σ) :
    (discover reader tracePath).Ends world (fun _ after => view after = view world)
      fun after => view after = view world :=
  ends_discover_of tracePath world (leaves tracePath world) fun _ same => same

end Builder

end BuildIdCache
