import BuildIdCache.Inspector
import BuildIdCache.Proofs.FileSystem.Steady
import BuildIdCache.Proofs.World

set_option autoImplicit false

namespace BuildIdCache

variable {σ : Type}

structure Reading where
  buildId : ByteArray → String
  sections : ByteArray → List String

namespace Reading

def level (reading : Reading) (content : ByteArray) : StrippedLevel :=
  .ofSections (reading.sections content)

def buildIdAt (reading : Reading) (fs : FileSystem) (path : Path) : String :=
  match fs.read path with
  | .ok content => reading.buildId content
  | .error _ => ""

def sectionsAt (reading : Reading) (fs : FileSystem) (path : Path) : List String :=
  match fs.read path with
  | .ok content => reading.sections content
  | .error _ => []

def levelAt (reading : Reading) (fs : FileSystem) (path : Path) : StrippedLevel :=
  .ofSections (reading.sectionsAt fs path)

variable (reading : Reading) (fs : FileSystem) (path : Path)

theorem buildIdAt_of_read (content : ByteArray) (h : fs.read path = .ok content) :
    reading.buildIdAt fs path = reading.buildId content := by
  simp [buildIdAt, h]

theorem levelAt_of_read (content : ByteArray) (h : fs.read path = .ok content) :
    reading.levelAt fs path = reading.level content := by
  simp [levelAt, sectionsAt, level, h]

theorem read_of_buildIdAt (known : reading.buildIdAt fs path ≠ "") :
    ∃ content, fs.read path = .ok content ∧ reading.buildId content =
      reading.buildIdAt fs path := by
  unfold buildIdAt at known ⊢
  split at known
  next content h => exact ⟨content, h, rfl⟩
  next => exact absurd rfl known

section

variable {reading fs} {later : FileSystem} {path}
  (same : ∀ content, later.read path = .ok content ↔ fs.read path = .ok content)

include same

theorem buildIdAt_congr : reading.buildIdAt later path = reading.buildIdAt fs path := by
  unfold buildIdAt
  cases h : fs.read path <;> cases h' : later.read path <;> simp_all

theorem levelAt_congr : reading.levelAt later path = reading.levelAt fs path := by
  unfold levelAt sectionsAt
  cases h : fs.read path <;> cases h' : later.read path <;> simp_all

end

end Reading

structure Inspector.Leaves {τ : Type} (inspector : Inspector σ) (view : World σ → τ) : Prop where
  buildId : ∀ path, (inspector.buildId path).Leaves view
  sections : ∀ path, (inspector.sections path).Leaves view

/-- An inspector that depends on nothing but the bytes of the file that it is asked for, and leaves
all files as they are. -/
structure Inspector.Reads (inspector : Inspector σ) (reading : Reading) : Prop where
  buildId : ∀ path world, (inspector.buildId path).After world fun id after =>
    id = reading.buildIdAt world.files path ∧ after.files = world.files
  sections : ∀ path world, (inspector.sections path).After world fun sections after =>
    sections = reading.sectionsAt world.files path ∧ after.files = world.files

namespace Inspector

def KeepsFiles (inspector : Inspector σ) : Prop :=
  ∀ path world, (inspector.buildId path).After world fun _ after => after.files = world.files

theorem Reads.keepsFiles {inspector : Inspector σ} {reading : Reading}
    (reads : inspector.Reads reading) : inspector.KeepsFiles :=
  fun path world => (reads.buildId path world).2

theorem Reads.leaves {inspector : Inspector σ} {reading : Reading}
    (reads : inspector.Reads reading) : inspector.Leaves World.files :=
  ⟨fun path world => (reads.buildId path world).2, fun path world => (reads.sections path world).2⟩

theorem Reads.recorded {inspector : Inspector σ} {reading : Reading}
    (reads : inspector.Reads reading) (asked : Part σ (List Path)) :
    (inspector.recorded asked).Reads reading where
  buildId path _ := reads.buildId path _
  sections path world := reads.sections path world

theorem Reads.level {inspector : Inspector σ} {reading : Reading} (reads : inspector.Reads reading)
    (path : Path) (world : World σ) : (inspector.level path).After world fun level after =>
      level = reading.levelAt world.files path ∧ after.files = world.files := by
  simp only [Inspector.level, Effect.after_bind, Effect.after_pure]
  refine (reads.sections path world).mono fun sections after answer => ?_
  exact ⟨by rw [answer.1, Reading.levelAt], answer.2⟩

theorem ofContent_quiet (name : String) (buildId : ByteArray → String)
    (sections : ByteArray → List String) (path : Path) (world : World σ) :
    ((ofContent name buildId sections).buildId path).After world fun _ after => after = world := by
  simp only [ofContent, Effect.after_bind, Effect.after_files]
  split <;> simp

theorem ofContent_reads (name : String) (reading : Reading) :
    (ofContent name reading.buildId reading.sections : Inspector σ).Reads reading where
  buildId path world := by
    simp only [ofContent, Reading.buildIdAt, Effect.after_bind, Effect.after_files]
    split <;> simp [*]
  sections path world := by
    simp only [ofContent, Reading.sectionsAt, Effect.after_bind, Effect.after_files]
    split <;> simp [*]

end Inspector

end BuildIdCache
