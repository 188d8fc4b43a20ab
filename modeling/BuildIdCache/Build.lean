import BuildIdCache.Index.Store
import BuildIdCache.Source.Device
import BuildIdCache.Source.SearchDirs
import BuildIdCache.Trace.Discovery

set_option autoImplicit false

namespace BuildIdCache

structure Period where
  started : String
  finished : String
deriving DecidableEq, Inhabited

structure BuildReport where
  tracePath : String
  cacheDir : String
  period : Period
  binaries : RequiredBinaries
  sources : List SourceReport
  indexEntries : Nat

structure Builder (σ : Type) where
  inspector : Inspector σ
  bridge : Bridge σ
  cache : Cache

namespace Builder

variable {σ : Type}

def discover (reader : TraceReader σ) (tracePath : Path) : Action σ RequiredBinaries := do
  let trace ← reader.openTrace tracePath
  trace.discover

def copyFromSearchDirs (builder : Builder σ) (binaries : RequiredBinaries) (dirs : List Path) :
    Action σ (Option SourceReport) := do
  if dirs.isEmpty then return none
  SearchDirs.require dirs
  return some (← SearchDirs.collect builder.inspector dirs binaries builder.cache)

def pullFromDevice (builder : Builder σ) (binaries : RequiredBinaries) : Action σ SourceReport :=
  DeviceSource.collect builder.inspector builder.bridge DeviceSource.defaultChain binaries
    builder.cache

def storeIndex (builder : Builder σ) : Action σ (List IndexRecord) :=
  Index.store builder.inspector builder.cache

def fill (builder : Builder σ) (binaries : RequiredBinaries) (tracePath : Path)
    (dirs : List Path) (period : Period) : Action σ BuildReport := do
  let copied ← builder.copyFromSearchDirs binaries dirs
  let pulled ← builder.pullFromDevice binaries
  let records ← builder.storeIndex
  return {
    tracePath := tracePath.display
    cacheDir := builder.cache.root.display
    period := period
    binaries := binaries
    sources := copied.toList ++ [pulled]
    indexEntries := records.length }

/-- Also answers the mapping that is known afterwards: a trace that cannot be read to its end leaves
the one known before. -/
def build (builder : Builder σ) (known : RequiredBinaries) (reader : TraceReader σ)
    (tracePath : Path) (dirs : List Path) (period : Period) :
    Effect σ (RequiredBinaries × Except CacheError BuildReport) := do
  match ← (discover reader tracePath).run with
  | .error e => return (known, .error e)
  | .ok binaries => return (binaries, ← (builder.fill binaries tracePath dirs period).run)

end Builder

end BuildIdCache
