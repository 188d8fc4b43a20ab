import BuildIdCache.Error
import BuildIdCache.FileSystem.Change

set_option autoImplicit false

namespace BuildIdCache

structure World (σ : Type) where
  files : FileSystem
  rest : σ

abbrev Effect (σ α : Type) : Type := StateM (World σ) α

/-- A failed action keeps the changes that it made before it failed. -/
abbrev Action (σ α : Type) : Type := ExceptT CacheError (StateM (World σ)) α

structure Part (σ τ : Type) where
  get : σ → τ
  set : τ → σ → σ

namespace Part

variable {σ τ : Type}

def whole : Part σ σ := ⟨id, fun new _ => new⟩

def read (part : Part σ τ) : Effect σ τ := fun world => (part.get world.rest, world)

def modify (part : Part σ τ) (f : τ → τ) : Effect σ Unit :=
  fun world => ((), { world with rest := part.set (f (part.get world.rest)) world.rest })

end Part

namespace Effect

variable {σ : Type}

def files : Effect σ FileSystem := fun world => (world.files, world)

def setFiles (fs : FileSystem) : Effect σ Unit :=
  fun world => ((), { world with files := fs })

def isFile (path : Path) : Effect σ Bool := do return (← files).isFile path

def isDir (path : Path) : Effect σ Bool := do return (← files).isDir path

end Effect

namespace Action

variable {σ : Type}

def files : Action σ FileSystem := fun world => (.ok world.files, world)

def setFiles (fs : FileSystem) : Action σ Unit :=
  fun world => (.ok (), { world with files := fs })

def isFile (path : Path) : Action σ Bool := fun world => (.ok (world.files.isFile path), world)

def change (path : Path) (f : FileSystem → Except IoError FileSystem) : Action σ Unit := do
  match f (← files) with
  | .ok fs => setFiles fs
  | .error e => throw (.io path e)

def makeDirAll (path : Path) : Action σ Unit := do
  let (fs, made) := (← files).makeDirAll path
  setFiles fs
  match made with
  | .ok () => return ()
  | .error e => throw (.io path e)

def removeFile (path : Path) : Action σ Unit := change path fun fs => fs.removeFile path

def write (path : Path) (content : ByteArray) : Action σ Unit :=
  change path fun fs => fs.write path content

def copy (source target : Path) : Action σ Unit :=
  change target fun fs => fs.copy source target

def read (path : Path) : Action σ ByteArray := do
  match (← files).read path with
  | .ok content => return content
  | .error e => throw (.io path e)

def readText (path : Path) : Action σ String := do
  match decodeStrict? (← read path) with
  | some text => return text
  | none => throw (.io path .invalidUtf8)

end Action

end BuildIdCache
