import BuildIdCache.Build
import BuildIdCache.CommandLine.Arguments
import BuildIdCache.Config.Load
import BuildIdCache.Device.Adb
import BuildIdCache.Elf.Inspector
import BuildIdCache.Json.Records
import BuildIdCache.Readelf.Inspector
import BuildIdCache.Trace.Reader

set_option autoImplicit false

namespace BuildIdCache.CommandLine

def version : String := "0.1.0"
def programName : String := "binary-cache-builder"
def defaultTrace : String := "perf.data"

inductive CommandError
  | config (cause : ConfigError)
  | traceMissing (path : Path)
  | notADirectory (what : String) (path : Path)
  | notIndexed (buildId : String) (list : Path)
  | cache (cause : CacheError)
  | building (trace : Path) (cause : CacheError)
  | indexing (root : Path) (cause : CacheError)

namespace CommandError

def message : CommandError → String
  | config cause => cause.message
  | traceMissing path => s!"Trace file does not exist: {path.display}"
  | notADirectory what path => s!"{what} does not exist: {path.display}"
  | notIndexed buildId list => s!"Build id {buildId} not found in {list.display}"
  | cache cause => cause.message
  | building trace _ => s!"Failed to build binary cache for {trace.display}"
  | indexing root _ => s!"Failed to index {root.display}"

def cause? : CommandError → Option String
  | building _ cause => some cause.message
  | indexing _ cause => some cause.message
  | _ => none

end CommandError

abbrev Command (σ α : Type) : Type := ExceptT CommandError (StateM (World σ)) α

namespace Command

variable {σ α : Type}

def files : Command σ FileSystem := fun world => (.ok world.files, world)

def ofAction (wrap : CacheError → CommandError) (action : Action σ α) : Command σ α :=
  fun world =>
    match action world with
    | (.ok a, world) => (.ok a, world)
    | (.error e, world) => (.error (wrap e), world)

def ofEffect (effect : Effect σ α) : Command σ α :=
  fun world =>
    let (a, world) := effect world
    (.ok a, world)

end Command

variable {σ : Type}

def resolveConfig (args : CommonArgs) : Command σ Config := do
  let base ← match args.config with
    | none => pure Config.default
    | some path =>
      match Config.load (← Command.files) path with
      | .ok config => pure config
      | .error e => throw (.config e)
  return { base with
    cacheDir := args.cacheDir.getD base.cacheDir
    inspector := args.inspector.getD base.inspector
    toolchain := args.toolchain.or base.toolchain
    readelf := args.readelf.or base.readelf }

def makeInspector (tools : Tools σ) (env : Environment) (config : Config) :
    Command σ (Inspector σ) := do
  match config.inspector with
  | .inProcess => return Elf.inspector
  | .readelf =>
    let program ← Command.ofAction .cache (Readelf.locate env config.readelf config.toolchain)
    return Readelf.inspector tools program

def requireDir (path : Path) (what : String) : Command σ Unit := do
  if (← Command.files).isDir path then return () else throw (.notADirectory what path)

def buildConfig (args : BuildArgs) (config : Config) : Config :=
  { config with
    searchDirs := config.searchDirs ++ args.libDirs
    disableRoot := config.disableRoot || args.disableRoot
    adb := args.adb.or config.adb
    profiler := args.profiler.or config.profiler }

def buildCache (tools : Tools σ) (env : Environment) (period : Period) (args : BuildArgs) :
    Command σ BuildReport := do
  let config := buildConfig args (← resolveConfig args.common)
  let trace := args.trace.getD (.ofString defaultTrace)
  if !(← Command.files).isFile trace then throw (.traceMissing trace)
  let inspector ← makeInspector tools env config
  let adb ← Command.ofEffect (Adb.locate env config.adb (!config.disableRoot))
  let builder : Builder σ := ⟨inspector, Adb.bridge tools adb, ⟨config.cacheDir⟩⟩
  let reader := (Trace.Reader.new config.profiler).traceReader tools env
  let (_, built) ← Command.ofEffect (builder.build .empty reader trace config.searchDirs period)
  match built with
  | .ok report => return report
  | .error e => throw (.building trace e)

def rebuildIndex (tools : Tools σ) (env : Environment) (args : CommonArgs) :
    Command σ (Cache × List IndexRecord) := do
  let config ← resolveConfig args
  requireDir config.cacheDir "Cache dir"
  let inspector ← makeInspector tools env config
  let cache : Cache := ⟨config.cacheDir⟩
  let records ← Command.ofAction (.indexing cache.root) (Index.store inspector cache)
  return (cache, records)

-- The build-id is looked for as it is given, then in its normal form.
def lookup (args : CommonArgs) (buildId : String) : Command σ IndexRecord := do
  let config ← resolveConfig args
  let cache : Cache := ⟨config.cacheDir⟩
  let index ← Command.ofAction .cache (Index.load cache)
  let normal := BuildId.normalize buildId
  match index.lookup? buildId with
  | some path => return ⟨buildId, path⟩
  | none =>
    match index.lookup? normal with
    | some path => return ⟨normal, path⟩
    | none => throw (.notIndexed buildId cache.listPath)

def listIndex (args : CommonArgs) : Command σ (List IndexRecord) := do
  let config ← resolveConfig args
  let index ← Command.ofAction .cache (Index.load ⟨config.cacheDir⟩)
  return index.records

end BuildIdCache.CommandLine
