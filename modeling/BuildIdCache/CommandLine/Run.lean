import BuildIdCache.CommandLine.Commands

set_option autoImplicit false

namespace BuildIdCache.CommandLine

def joinLines (lines : List String) : String := String.join (lines.map (· ++ "\n"))

def sourceLine (report : SourceReport) : String :=
  s!"  [{report.source}] collected={report.collected.length} " ++
    s!"reused={report.reused.length} failed={report.failed.length}" ++
    if report.kernelSymbols then " kallsyms" else ""

def buildSummary (report : BuildReport) : String :=
  joinLines (
    [s!"{programName} v{version}",
      s!"Binary cache: {report.cacheDir}",
      s!"  Trace: {report.tracePath}",
      s!"  Binaries used: {report.binaries.size}"] ++
    report.sources.map sourceLine ++
    [s!"  Indexed: {report.indexEntries}"])

def buildText (json : Bool) (report : BuildReport) : String :=
  if json then report.toJson.pretty ++ "\n" else buildSummary report

def indexText (cache : Cache) (records : List IndexRecord) : String :=
  joinLines [s!"Indexed {records.length} binaries in {cache.listPath.display}"]

def lookupText (record : IndexRecord) : String := joinLines [record.path]

def listText (json : Bool) (records : List IndexRecord) : String :=
  if json then (Index.recordsToJson records).pretty ++ "\n"
  else
    joinLines (
      s!"Index entries ({records.length}):" ::
      (if records.isEmpty then ["  (none)"] else []) ++
      records.map fun record => s!"  - {record.buildId} {record.path}")

variable {σ : Type}

def perform (tools : Tools σ) (env : Environment) (period : Period) :
    Invocation → Command σ String
  | .build args => do return buildText args.json (← buildCache tools env period args)
  | .index common => do
    let (cache, records) ← rebuildIndex tools env common
    return indexText cache records
  | .lookup buildId common => do return lookupText (← lookup common buildId)
  | .list json common => do return listText json (← listIndex common)

structure Outcome where
  status : Nat
  stdout : String
  stderr : String
deriving DecidableEq

def errorText (e : CommandError) : String :=
  s!"Error: {e.message}\n" ++
    match e.cause? with
    | some cause => s!"\nCaused by:\n    {cause}\n"
    | none => ""

def usageText : String := s!"Usage: {programName} [OPTIONS] [build|index|lookup|list]\n"

/-- The whole command line: a usage error ends with status 2, a failed command with status 1. -/
def run (tools : Tools σ) (env : Environment) (period : Period) (arguments : List String) :
    Effect σ Outcome := do
  match parse arguments with
  | .error .version => return ⟨0, s!"{programName} {version}\n", ""⟩
  | .error .usage => return ⟨2, "", usageText⟩
  | .ok invocation =>
    match ← (perform tools env period invocation).run with
    | .ok text => return ⟨0, text, ""⟩
    | .error e => return ⟨1, "", errorText e⟩

end BuildIdCache.CommandLine
