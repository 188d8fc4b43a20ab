import BuildIdCache.FileSystem.Walk
import BuildIdCache.Inspector
import BuildIdCache.Layout
import BuildIdCache.Required
import BuildIdCache.Source.Report

set_option autoImplicit false

namespace BuildIdCache.SearchDirs

variable {σ : Type}

def sourceName : String := "lib-dirs"

def require : List Path → Action σ Unit
  | [] => return ()
  | dir :: rest => do
    if (← Action.files).isDir dir then require rest else throw (.missingSearchDir dir)

/-- A cached file with the expected build-id gives way only to one that is less stripped. -/
def needToCopy (inspector : Inspector σ) (source target : Path) (expected : String) :
    Effect σ Bool := do
  if !(← Effect.isFile target) then return true
  if (← inspector.buildId target) ≠ expected then return true
  let offered ← inspector.level source
  let cached ← inspector.level target
  return offered < cached

def copyWatched (copying : Action σ Unit) (inspector : Inspector σ) (source target : Path)
    (expected : String) : Action σ Bool := do
  if ← needToCopy inspector source target expected then
    if let some dir := target.parent? then Action.makeDirAll dir
    copying
    Action.copy source target
    return true
  else
    return false

def addOnce (paths : List String) (path : String) : List String :=
  if path ∈ paths then paths else paths ++ [path]

/-- What goes along with a search: something for each file that it comes to, and something for each
copy that it makes of a file for a path. -/
structure Watch (σ : Type) where
  met : Path → Action σ Unit
  copying : String → Path → Path → Action σ Unit

namespace Watch

def silent : Watch σ := ⟨fun _ => return (), fun _ _ _ => return ()⟩

variable (watch : Watch σ)

def offer (inspector : Inspector σ) (cache : Cache) (file : Path) (buildId : String)
    (report : SourceReport) (wanted : String × String) : Action σ SourceReport := do
  let (path, expected) := wanted
  if expected ≠ buildId then return report
  let target := cache.pathOf path
  if ← copyWatched (watch.copying path file target) inspector file target expected then
    return { report with collected := addOnce report.collected path }
  else
    return { report with reused := addOnce report.reused path }

def visit (inspector : Inspector σ) (cache : Cache)
    (wanted : SortedMap String (List (String × String))) (report : SourceReport) (file : Path) :
    Action σ SourceReport := do
  watch.met file
  match (file.fileName?.bind Name.toString?).bind wanted.get? with
  | none => return report
  | some bucket =>
    let buildId ← inspector.buildId file
    bucket.foldlM (watch.offer inspector cache file buildId) report

def collect (inspector : Inspector σ) (dirs : List Path) (binaries : RequiredBinaries)
    (cache : Cache) : Action σ SourceReport := do
  let wanted := binaries.byFileName
  let report ← dirs.foldlM
    (fun report dir => FileSystem.walk dir (watch.visit inspector cache wanted) report)
    (.start sourceName)
  return { report with reused := report.reused.filter fun path => path ∉ report.collected }

end Watch

def copyToCache (inspector : Inspector σ) (source target : Path) (expected : String) :
    Action σ Bool :=
  copyWatched (return ()) inspector source target expected

def offer (inspector : Inspector σ) (cache : Cache) (file : Path) (buildId : String)
    (report : SourceReport) (wanted : String × String) : Action σ SourceReport :=
  Watch.silent.offer inspector cache file buildId report wanted

def visit (inspector : Inspector σ) (cache : Cache)
    (wanted : SortedMap String (List (String × String))) (report : SourceReport) (file : Path) :
    Action σ SourceReport :=
  Watch.silent.visit inspector cache wanted report file

def collect (inspector : Inspector σ) (dirs : List Path) (binaries : RequiredBinaries)
    (cache : Cache) : Action σ SourceReport :=
  Watch.silent.collect inspector dirs binaries cache

end BuildIdCache.SearchDirs
