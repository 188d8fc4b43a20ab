import BuildIdCache.Device.Bridge
import BuildIdCache.Inspector
import BuildIdCache.Layout
import BuildIdCache.Required
import BuildIdCache.Source.Report

set_option autoImplicit false

namespace BuildIdCache.DeviceSource

variable {σ : Type}

def sourceName : String := "device"
def scratchDir : String := "/data/local/tmp"
def deviceKernelSymbols : String := "/proc/kallsyms"

inductive Strategy
  | direct
  | scratchCopy (dir : String)
deriving DecidableEq

def defaultChain : List Strategy := [.direct, .scratchCopy scratchDir]

def stagedPath (dir path : String) : String := dir ++ "/" ++ fileNameOf path

-- A staged copy is removed only after it was pulled.
def attempt (bridge : Bridge σ) (path : String) (target : Path) : Strategy → Effect σ Bool
  | .direct => bridge.pull path target
  | .scratchCopy dir => do
    if !(← bridge.shell ["cp", path, dir]) then return false
    if !(← bridge.pull (stagedPath dir path) target) then return false
    let _ ← bridge.shell ["rm", stagedPath dir path]
    return true

def pullFile (bridge : Bridge σ) (path : String) (target : Path) : List Strategy → Effect σ Bool
  | [] => return false
  | strategy :: rest => do
    if ← attempt bridge path target strategy then return true
    else pullFile bridge path target rest

def isPullable (path : String) : Bool :=
  startsWith path "/" && path ≠ anonymousDso && !startsWith path deviceNodes

/-- A cached file is trusted if its build-id is the expected one, or if none is expected. -/
def isTrusted (inspector : Inspector σ) (target : Path) (expected : String) : Effect σ Bool := do
  if !(← Effect.isFile target) then return false
  if expected.isEmpty then return true
  return expected = (← inspector.buildId target)

def collectBinary (inspector : Inspector σ) (bridge : Bridge σ) (chain : List Strategy)
    (cache : Cache) (report : SourceReport) (wanted : String × String) :
    Action σ SourceReport := do
  let (path, expected) := wanted
  if !isPullable path then return report
  let target := cache.pathOf path
  if ← isTrusted inspector target expected then
    return { report with reused := report.reused ++ [path] }
  if let some dir := target.parent? then Action.makeDirAll dir
  if ← Action.isFile target then Action.removeFile target
  if ← pullFile bridge path target chain then
    return { report with collected := report.collected ++ [path] }
  else
    return { report with failed := report.failed ++ [path] }

-- The kernel symbols of an earlier run never stay; new ones need root.
def pullKernelSymbols (bridge : Bridge σ) (cache : Cache) : Action σ Bool := do
  let target := cache.kernelSymbolsPath
  if ← Action.isFile target then Action.removeFile target
  if !(← bridge.switchToRoot) then return false
  Action.makeDirAll cache.root
  let _ ← bridge.shell ["echo", "0", ">/proc/sys/kernel/kptr_restrict"]
  bridge.pull deviceKernelSymbols target

def collect (inspector : Inspector σ) (bridge : Bridge σ) (chain : List Strategy)
    (binaries : RequiredBinaries) (cache : Cache) : Action σ SourceReport := do
  let start := SourceReport.start sourceName
  if !(← bridge.available) then return start
  let report ← binaries.entries.foldlM (collectBinary inspector bridge chain cache) start
  return { report with kernelSymbols := ← pullKernelSymbols bridge cache }

end BuildIdCache.DeviceSource
